import WiredViews.Proofs.NameTokens
import WiredViews.ServiceBlock

-- A service block that is accepted is a row of entries with white space between their tokens.
namespace WiredViews

def Dependency.tokens (entry : Dependency) : List (List Char) :=
  [entry.argument.toList, ['='], '$' :: entry.source.toList, [';']]

structure Dependency.Named (entry : Dependency) : Prop where
  argument : isName entry.argument.toList = true
  source : isName entry.source.toList = true

namespace BlockState

def Accepts (state : BlockState) (text : List Char) : Prop :=
  text.foldlM next state = some .between

theorem accepts_nil {state : BlockState} : state.Accepts [] ↔ state = .between := by
  simp [Accepts]

theorem accepts_cons {state : BlockState} {c : Char} {rest : List Char} :
    state.Accepts (c :: rest) ↔ ∃ after, state.next c = some after ∧ after.Accepts rest := by
  unfold Accepts
  rw [List.foldlM_cons]
  exact Option.bind_eq_some_iff

def WaitsFor (state : BlockState) (mark : Char) (after : BlockState) : Prop :=
  state ≠ .between ∧ isBlank mark = false ∧
    ∀ c, state.next c = if isBlank c then some state else if c = mark then some after else none

theorem accepts_mark {state after : BlockState} {mark : Char} (waits : state.WaitsFor mark after)
    {text : List Char} :
    state.Accepts text ↔ ∃ blanks rest, isAllBlank blanks = true ∧ text = blanks ++ mark :: rest ∧
      after.Accepts rest := by
  obtain ⟨inside, solid, next⟩ := waits
  constructor
  · intro accepted
    induction text with
    | nil => exact absurd (accepts_nil.mp accepted) inside
    | cons c rest ih =>
      obtain ⟨later, moved, tail⟩ := accepts_cons.mp accepted
      rw [next] at moved
      split at moved
      · rename_i blank
        cases moved
        obtain ⟨blanks, left, all, rfl, further⟩ := ih tail
        exact ⟨c :: blanks, left, by simpa [isAllBlank, blank] using all, rfl, further⟩
      · split at moved
        · rename_i same
          cases moved
          exact ⟨[], rest, rfl, by rw [same]; rfl, tail⟩
        · cases moved
  · intro given
    obtain ⟨blanks, rest, all, rfl, further⟩ := given
    induction blanks with
    | nil => exact accepts_cons.mpr ⟨after, by rw [next]; simp [solid], further⟩
    | cons c blanks ih =>
      simp only [isAllBlank, List.all_cons, Bool.and_eq_true] at all
      exact accepts_cons.mpr ⟨state, by rw [next, if_pos all.1], ih all.2⟩

theorem accepts_letters {state waiting after : BlockState} {mark : Char} (waits : waiting.WaitsFor mark after)
    (next : ∀ c, state.next c = if isNameChar c then some state else waiting.next c)
    (inside : state ≠ .between) (other : isNameChar mark = false) {text : List Char} :
    state.Accepts text ↔ ∃ letters blanks rest, (∀ c ∈ letters, isNameChar c = true) ∧
      isAllBlank blanks = true ∧ text = letters ++ (blanks ++ mark :: rest) ∧ after.Accepts rest := by
  constructor
  · intro accepted
    induction text with
    | nil => exact absurd (accepts_nil.mp accepted) inside
    | cons c rest ih =>
      obtain ⟨later, moved, tail⟩ := accepts_cons.mp accepted
      rw [next] at moved
      split at moved
      · rename_i letter
        cases moved
        obtain ⟨letters, blanks, left, all, blank, rfl, further⟩ := ih tail
        refine ⟨c :: letters, blanks, left, ?_, blank, rfl, further⟩
        exact List.forall_mem_cons.mpr ⟨letter, all⟩
      · obtain ⟨blanks, left, blank, split, further⟩ :=
          (accepts_mark waits).mp (accepts_cons.mpr ⟨later, moved, tail⟩)
        exact ⟨[], blanks, left, by simp, blank, split, further⟩
  · intro given
    obtain ⟨letters, blanks, rest, all, blank, rfl, further⟩ := given
    induction letters with
    | nil =>
      have tail : waiting.Accepts (blanks ++ mark :: rest) :=
        (accepts_mark waits).mpr ⟨blanks, rest, blank, rfl, further⟩
      rw [List.nil_append]
      cases blanks with
      | nil =>
        obtain ⟨later, moved, left⟩ := accepts_cons.mp tail
        exact accepts_cons.mpr ⟨later, by rw [next, if_neg (by simp [other]), moved], left⟩
      | cons c blanks =>
        obtain ⟨later, moved, left⟩ := accepts_cons.mp tail
        have space := not_isNameChar_of_blank (isAllBlank_iff.mp blank c (by simp))
        exact accepts_cons.mpr ⟨later, by rw [next, if_neg (by simp [space]), moved], left⟩
    | cons c letters ih =>
      rw [List.forall_mem_cons] at all
      exact accepts_cons.mpr ⟨state, by rw [next, if_pos all.1], ih all.2⟩

theorem waits_equals : beforeEquals.WaitsFor '=' .beforeSource :=
  ⟨by decide, by decide, fun _ => rfl⟩

theorem waits_source : beforeSource.WaitsFor '$' .sigil :=
  ⟨by decide, by decide, fun _ => rfl⟩

theorem waits_semicolon : beforeSemicolon.WaitsFor ';' .between :=
  ⟨by decide, by decide, fun _ => rfl⟩

theorem between_blanks {blanks rest : List Char} (all : isAllBlank blanks = true)
    (tail : between.Accepts rest) : between.Accepts (blanks ++ rest) := by
  induction blanks with
  | nil => exact tail
  | cons c blanks ih =>
    simp only [isAllBlank, List.all_cons, Bool.and_eq_true] at all
    exact accepts_cons.mpr ⟨.between, by simp [next, all.1], ih all.2⟩

theorem accepts_between {text : List Char} :
    between.Accepts text ↔ isAllBlank text = true ∨ ∃ blanks c rest, isAllBlank blanks = true ∧
      c.isLower = true ∧ text = blanks ++ c :: rest ∧ argument.Accepts rest := by
  constructor
  · intro accepted
    induction text with
    | nil => exact Or.inl rfl
    | cons c rest ih =>
      obtain ⟨later, moved, tail⟩ := accepts_cons.mp accepted
      simp only [next] at moved
      split at moved
      · rename_i blank
        cases moved
        rcases ih tail with all | ⟨blanks, d, left, all, lower, rfl, further⟩
        · exact Or.inl (by simpa [isAllBlank, blank] using all)
        · exact Or.inr ⟨c :: blanks, d, left, by simpa [isAllBlank, blank] using all, lower, rfl, further⟩
      · split at moved
        · rename_i lower
          cases moved
          exact Or.inr ⟨[], c, rest, rfl, lower, rfl, tail⟩
        · cases moved
  · intro given
    rcases given with all | ⟨blanks, c, rest, all, lower, rfl, tail⟩
    · rw [← List.append_nil text]
      exact between_blanks all (accepts_nil.mpr rfl)
    · have solid := not_blank_of_isNameChar (isNameChar_of_isLower lower)
      exact between_blanks all (accepts_cons.mpr ⟨.argument, by simp [next, solid, lower], tail⟩)

theorem accepts_argument {text : List Char} :
    argument.Accepts text ↔ ∃ letters blanks rest, (∀ c ∈ letters, isNameChar c = true) ∧
      isAllBlank blanks = true ∧ text = letters ++ (blanks ++ '=' :: rest) ∧ beforeSource.Accepts rest :=
  accepts_letters waits_equals (fun _ => rfl) (by decide) (by decide)

theorem accepts_source {text : List Char} :
    source.Accepts text ↔ ∃ letters blanks rest, (∀ c ∈ letters, isNameChar c = true) ∧
      isAllBlank blanks = true ∧ text = letters ++ (blanks ++ ';' :: rest) ∧ between.Accepts rest :=
  accepts_letters waits_semicolon (fun _ => rfl) (by decide) (by decide)

theorem accepts_sigil {text : List Char} :
    sigil.Accepts text ↔ ∃ c rest, c.isLower = true ∧ text = c :: rest ∧ source.Accepts rest := by
  cases text with
  | nil => simp [accepts_nil]
  | cons c rest =>
    rw [accepts_cons]
    simp only [next]
    constructor
    · intro given
      obtain ⟨later, moved, tail⟩ := given
      split at moved
      · rename_i lower
        cases moved
        exact ⟨c, rest, lower, rfl, tail⟩
      · cases moved
    · intro given
      obtain ⟨d, left, lower, equal, tail⟩ := given
      cases equal
      exact ⟨.source, by simp [lower], tail⟩

end BlockState

theorem spaced_entry {entry : Dependency} {text : List Char} : Spaced entry.tokens text ↔
    ∃ first second third fourth last, isAllBlank first = true ∧ isAllBlank second = true ∧
      isAllBlank third = true ∧ isAllBlank fourth = true ∧ isAllBlank last = true ∧
      text = first ++ (entry.argument.toList ++ (second ++ '=' :: (third ++ '$' :: (entry.source.toList ++
        (fourth ++ ';' :: last))))) := by
  simp only [Dependency.tokens, spaced_cons, spaced_nil]
  constructor
  · intro given
    obtain ⟨first, _, one, rfl, second, _, two, rfl, third, _, three, rfl, fourth, last, four, rfl, five⟩ := given
    exact ⟨first, second, third, fourth, last, one, two, three, four, five, rfl⟩
  · intro given
    obtain ⟨first, second, third, fourth, last, one, two, three, four, five, rfl⟩ := given
    exact ⟨first, _, one, rfl, second, _, two, rfl, third, _, three, rfl, fourth, last, four, rfl, five⟩

namespace BlockState

theorem accepts_entry {text : List Char} :
    between.Accepts text ↔ isAllBlank text = true ∨ ∃ entry front rest, Dependency.Named entry ∧
      Spaced entry.tokens front ∧ text = front ++ rest ∧ between.Accepts rest := by
  rw [accepts_between]
  refine or_congr_right ?_
  constructor
  · intro given
    obtain ⟨first, c, _, one, lower, rfl, inArgument⟩ := given
    obtain ⟨letters, second, _, named, two, rfl, afterEquals⟩ := accepts_argument.mp inArgument
    obtain ⟨third, _, three, rfl, afterSigil⟩ := (accepts_mark waits_source).mp afterEquals
    obtain ⟨d, _, low, rfl, inSource⟩ := accepts_sigil.mp afterSigil
    obtain ⟨more, fourth, rest, renamed, four, rfl, further⟩ := accepts_source.mp inSource
    refine ⟨⟨String.ofList (c :: letters), String.ofList (d :: more)⟩, _, rest, ⟨?_, ?_⟩,
      spaced_entry.mpr ⟨first, second, third, fourth, [], one, two, three, four, rfl, rfl⟩, ?_, further⟩
    · exact isName_iff.mpr ⟨c, letters, String.toList_ofList, lower, named⟩
    · exact isName_iff.mpr ⟨d, more, String.toList_ofList, low, renamed⟩
    · simp
  · intro given
    obtain ⟨entry, _, rest, ⟨argument, source⟩, spaced, rfl, further⟩ := given
    obtain ⟨first, second, third, fourth, last, one, two, three, four, five, rfl⟩ := spaced_entry.mp spaced
    obtain ⟨c, letters, spelled, lower, named⟩ := isName_iff.mp argument
    obtain ⟨d, more, respelled, low, renamed⟩ := isName_iff.mp source
    refine ⟨first, c, _, one, lower, by simp [spelled]; rfl, ?_⟩
    refine accepts_argument.mpr ⟨letters, second, _, named, two, rfl, ?_⟩
    refine (accepts_mark waits_source).mpr ⟨third, _, three, rfl, ?_⟩
    refine accepts_sigil.mpr ⟨d, _, low, by simp [respelled]; rfl, ?_⟩
    exact accepts_source.mpr ⟨more, fourth, _, renamed, four, rfl, between_blanks five further⟩

end BlockState

theorem Spaced.length_pos {token text : List Char} {tokens : List (List Char)} (some_token : token ≠ [])
    (spaced : Spaced (token :: tokens) text) : 0 < text.length := by
  obtain ⟨blanks, rest, _, rfl, _⟩ := spaced_cons.mp spaced
  have long := List.length_pos_iff.mpr some_token
  simp only [List.length_append]
  omega

theorem accepts_entries {text : List Char} : BlockState.between.Accepts text ↔
    ∃ entries : List Dependency, (∀ entry ∈ entries, entry.Named) ∧
      Spaced (entries.flatMap Dependency.tokens) text := by
  constructor
  · intro accepted
    induction size : text.length using Nat.strongRecOn generalizing text with
    | _ size ih =>
      rcases BlockState.accepts_entry.mp accepted with blank | ⟨entry, front, rest, named, spaced, rfl, further⟩
      · exact ⟨[], by simp, .done blank⟩
      · have some_token : entry.argument.toList ≠ [] := by
          intro empty
          have letters := named.argument
          rw [empty] at letters
          cases letters
        have shorter := Spaced.length_pos some_token spaced
        rw [List.length_append] at size
        obtain ⟨entries, others, tail⟩ := ih rest.length (by omega) further rfl
        exact ⟨entry :: entries, List.forall_mem_cons.mpr ⟨named, others⟩,
          spaced_append.mpr ⟨front, rest, rfl, spaced, tail⟩⟩
  · intro given
    obtain ⟨entries, named, spaced⟩ := given
    induction entries generalizing text with
    | nil => exact BlockState.accepts_entry.mpr (Or.inl (spaced_nil.mp spaced))
    | cons entry entries ih =>
      rw [List.forall_mem_cons] at named
      obtain ⟨front, rest, rfl, first, tail⟩ := spaced_append.mp spaced
      exact BlockState.accepts_entry.mpr (Or.inr ⟨entry, front, rest, named.1, first, rfl, ih named.2 tail⟩)

theorem isServiceBlock_iff {inside : List Char} : isServiceBlock inside = true ↔
    ∃ entries : List Dependency, (∀ entry ∈ entries, entry.Named) ∧
      Spaced (entries.flatMap Dependency.tokens) inside := by
  rw [← accepts_entries]
  exact decide_eq_true_iff

end WiredViews
