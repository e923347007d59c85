import Mathlib.Data.List.Forall2
import WiredViews.Proofs.PatternRuns
import WiredViews.ViewRenderer

namespace WiredViews

def references : List (Char × List Char) :=
  [('&', "&amp;".toList), ('<', "&lt;".toList), ('>', "&gt;".toList), ('\'', "&#39;".toList),
    ('"', "&#34;".toList)]

def referencePattern : Pattern Char := fun text =>
  references.findSome? fun row => (takeMark row.2 text).map fun left => (row.1, left)

def readReferencePiece : Segment Char → List Char
  | .plain stretch => stretch
  | .found c => [c]

-- Every reference is read once, from left to right; what it stands for is not looked at again.
def unescapeMarkup (text : List Char) : List Char :=
  (segments referencePattern text).flatMap readReferencePiece

def isMarkup (c : Char) : Bool :=
  ['<', '>', '"', '\''].contains c

structure Escapes (content escaped : List Char) : Prop where
  bare : ∀ c ∈ escaped, isMarkup c = false
  begun : ∀ front back, escaped = front ++ '&' :: back → ∃ row ∈ references, row.2 <+: '&' :: back
  undone : unescapeMarkup escaped = content

section Escaping
variable {c : Char} {content rest : List Char}

theorem escapeChar_cases (c : Char) :
    (c, escapeChar c) ∈ references ∨ c ≠ '&' ∧ isMarkup c = false ∧ escapeChar c = [c] := by
  unfold escapeChar
  split
  iterate 5 exact Or.inl (by decide)
  rename_i amp lt gt apostrophe quote
  refine Or.inr ⟨amp, ?_, rfl⟩
  rw [isMarkup, List.contains_eq_mem, decide_eq_false_iff_not]
  simp only [List.mem_cons, List.not_mem_nil, or_false, not_or]
  exact ⟨lt, gt, quote, apostrophe⟩

theorem reference_plain : ∀ row ∈ references, ∀ c ∈ row.2, isMarkup c = false := by
  have plain : (references.all fun row => row.2.all fun c => !isMarkup c) = true := by decide
  simpa only [List.all_eq_true, Bool.not_eq_true'] using plain

theorem reference_begun {row : Char × List Char} (listed : row ∈ references) {first second : List Char}
    (split : row.2 = first ++ '&' :: second) : first = [] := by
  have once : ∀ row ∈ references, '&' ∉ row.2.tail := by decide
  cases first with
  | nil => rfl
  | cons c first =>
    have later := once row listed
    simp [split] at later

theorem reference_found {row : Char × List Char} (listed : row ∈ references) (rest : List Char) :
    segments referencePattern (row.2 ++ rest) = .found row.1 :: segments referencePattern rest := by
  have some_text : ∀ row ∈ references, row.2 ≠ [] := by decide
  have found : ∀ row ∈ references, referencePattern (row.2 ++ rest) = some (row.1, rest) := by
    simp only [references, List.forall_mem_cons]
    exact ⟨rfl, rfl, rfl, rfl, rfl, List.forall_mem_nil _⟩
  exact segments_token (some_text row listed) (found row listed)

theorem reference_missed (other : c ≠ '&') (rest : List Char) : referencePattern (c :: rest) = none := by
  have begins : ∀ row ∈ references, ∃ more, row.2 = '&' :: more := by
    simp only [references, List.forall_mem_cons]
    exact ⟨⟨_, rfl⟩, ⟨_, rfl⟩, ⟨_, rfl⟩, ⟨_, rfl⟩, ⟨_, rfl⟩, List.forall_mem_nil _⟩
  rw [referencePattern, List.findSome?_eq_none_iff]
  intro row listed
  obtain ⟨more, spelled⟩ := begins row listed
  rw [spelled, takeMark, if_neg (Ne.symm other)]
  rfl

theorem unescape_reference {row : Char × List Char} (listed : row ∈ references) (rest : List Char) :
    unescapeMarkup (row.2 ++ rest) = row.1 :: unescapeMarkup rest := by
  rw [unescapeMarkup, reference_found listed]
  rfl

theorem unescape_plain (other : c ≠ '&') (rest : List Char) :
    unescapeMarkup (c :: rest) = c :: unescapeMarkup rest := by
  rw [unescapeMarkup, segments_cons, reference_missed other]
  dsimp only
  rw [flatMap_consChar fun _ _ => rfl]
  rfl

theorem unescape_escape (content : List Char) : unescapeMarkup (escapeMarkup content) = content := by
  unfold escapeMarkup
  induction content with
  | nil => rfl
  | cons c content ih =>
    rw [List.flatMap_cons]
    rcases escapeChar_cases c with reference | ⟨plain, _, same⟩
    · rw [unescape_reference reference, ih]
    · rw [same, List.singleton_append, unescape_plain plain, ih]

-- The induction is on the length of the text, as a reference is taken off as a whole.
theorem escape_unescape {escaped : List Char} (bare : ∀ c ∈ escaped, isMarkup c = false)
    (begun : ∀ front back, escaped = front ++ '&' :: back → ∃ row ∈ references, row.2 <+: '&' :: back) :
    escapeMarkup (unescapeMarkup escaped) = escaped := by
  induction size : escaped.length using Nat.strongRecOn generalizing escaped with
  | _ size ih =>
    cases escaped with
    | nil => rfl
    | cons c rest =>
      by_cases ampersand : c = '&'
      · subst ampersand
        obtain ⟨row, listed, more, split⟩ := begun [] rest rfl
        have spelled : escapeChar row.1 = row.2 := by
          have each : ∀ row ∈ references, escapeChar row.1 = row.2 := by decide
          exact each row listed
        have some_text : row.2 ≠ [] := by
          have each : ∀ row ∈ references, row.2 ≠ [] := by decide
          exact each row listed
        have shorter := List.length_pos_iff.mpr some_text
        rw [← split] at bare begun size ⊢
        have further : escapeMarkup (unescapeMarkup more) = more := by
          refine ih more.length (by rw [← size, List.length_append]; omega)
            (fun c inside => bare c (List.mem_append_right _ inside)) (fun front back later => ?_) rfl
          exact begun (row.2 ++ front) back (by rw [later, List.append_assoc])
        rw [unescape_reference listed, escapeMarkup, List.flatMap_cons, spelled]
        exact congrArg (row.2 ++ ·) further
      · have plain : escapeChar c = [c] := by
          rcases escapeChar_cases c with reference | ⟨_, _, same⟩
          · have marks : ∀ row ∈ references, row.1 = '&' ∨ isMarkup row.1 = true := by decide
            have markup := (marks _ reference).resolve_left ampersand
            rw [bare c List.mem_cons_self] at markup
            cases markup
          · exact same
        have further : escapeMarkup (unescapeMarkup rest) = rest := by
          refine ih rest.length (by rw [← size]; simp) (fun d inside => bare d (List.mem_cons_of_mem _ inside))
            (fun front back later => ?_) rfl
          exact begun (c :: front) back (by rw [later, List.cons_append])
        rw [unescape_plain ampersand, escapeMarkup, List.flatMap_cons, plain]
        exact congrArg (c :: ·) further

theorem escape_escapes (content : List Char) : Escapes content (escapeMarkup content) := by
  constructor
  case bare =>
    intro c listed
    obtain ⟨d, _, inside⟩ := List.mem_flatMap.mp listed
    rcases escapeChar_cases d with reference | ⟨_, plain, same⟩
    · exact reference_plain _ reference c inside
    · rw [same, List.mem_singleton] at inside
      rwa [inside]
  case begun =>
    intro front back split
    obtain ⟨_, d, after, first, second, _, spelled, _, rfl⟩ := flatMap_split split
    rcases escapeChar_cases d with reference | ⟨plain, _, same⟩
    · cases reference_begun reference spelled
      refine ⟨_, reference, ?_⟩
      rw [spelled, List.nil_append, ← List.cons_append]
      exact List.prefix_append _ _
    · have listed : '&' ∈ [d] := by simp [← same, spelled]
      exact absurd (List.mem_singleton.mp listed).symm plain
  case undone => exact unescape_escape content

theorem Escapes.exact {escaped : List Char} (escapes : Escapes content escaped) : escaped = escapeMarkup content := by
  rw [← escapes.undone, escape_unescape escapes.bare escapes.begun]

end Escaping

inductive Value.Reads : Value → List Char → Prop where
  | text (words : String) : Reads (.str words) words.toList
  | literal {value : Value} (other : ∀ words, value ≠ .str words) : Reads value value.literal.toList

inductive ViewStyle.Shows (style : ViewStyle) : Value → List Char → Prop where
  | missing : Shows style .null style.placeholder.toList
  | listed {value : Value} {items : List Value} {parts : List (List Char)}
      (lists : value = .list items ∨ value = .tuple items) (reads : List.Forall₂ Value.Reads items parts) :
      Shows style value (style.separator.toList.intercalate parts)
  | single {value : Value} {shown : List Char} (present : value ≠ .null)
      (unlisted : ∀ items, value ≠ .list items ∧ value ≠ .tuple items) (reads : value.Reads shown) :
      Shows style value shown

inductive Slot (style : ViewStyle) (value : Value) : RenderMode → List Char → Prop where
  | text {shown : List Char} (shows : style.Shows value shown) : Slot style value .text shown
  | html {shown escaped : List Char} (shows : style.Shows value shown) (escapes : Escapes shown escaped) :
      Slot style value .html escaped

section Slots
variable {style : ViewStyle} {value : Value} {text : List Char}

theorem display_exact : value.Reads text ↔ text = value.display.toList := by
  constructor
  · intro reads
    cases reads with
    | text words => rfl
    | literal other =>
      cases value with
      | str words => exact absurd rfl (other words)
      | _ => rfl
  · rintro rfl
    cases value with
    | str words => exact .text words
    | _ => exact .literal nofun

theorem displays_exact {items : List Value} {parts : List (List Char)} :
    List.Forall₂ Value.Reads items parts ↔ parts = items.map fun item => item.display.toList := by
  induction items generalizing parts with
  | nil => simp
  | cons item rest ih =>
    cases parts with
    | nil => simp
    | cons part others => simp [display_exact, ih]

theorem format_exact : style.Shows value text ↔ text = (style.format value).toList := by
  have joined : ∀ items : List Value, (style.separator.intercalate (items.map Value.display)).toList =
      style.separator.toList.intercalate (items.map fun item => item.display.toList) := by
    intro items
    rw [String.toList_intercalate, List.map_map]
    rfl
  constructor
  · intro shows
    cases shows with
    | missing => rfl
    | listed lists reads =>
      rw [displays_exact.mp reads, ← joined]
      rcases lists with rfl | rfl <;> rfl
    | single present unlisted reads =>
      rw [display_exact.mp reads]
      cases value with
      | null => exact absurd rfl present
      | list items => exact absurd rfl (unlisted items).1
      | tuple items => exact absurd rfl (unlisted items).2
      | _ => rfl
  · rintro rfl
    cases value with
    | null => exact .missing
    | list items =>
      rw [ViewStyle.format, joined]
      exact .listed (Or.inl rfl) (displays_exact.mpr rfl)
    | tuple items =>
      rw [ViewStyle.format, joined]
      exact .listed (Or.inr rfl) (displays_exact.mpr rfl)
    | _ => exact .single nofun (fun _ => ⟨nofun, nofun⟩) (display_exact.mpr rfl)

theorem slot_exact {mode : RenderMode} : Slot style value mode text ↔ text = slotText style mode value := by
  constructor
  · intro slot
    cases slot with
    | text shows => exact format_exact.mp shows
    | html shows escapes =>
      rw [escapes.exact, format_exact.mp shows]
      rfl
  · rintro rfl
    cases mode with
    | html => exact .html (format_exact.mpr rfl) (escape_escapes _)
    | text => exact .text (format_exact.mpr rfl)

end Slots
end WiredViews
