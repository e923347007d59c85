import Mathlib.Logic.Basic
import WiredViews.Placeholder
import WiredViews.Proofs.NameTokens
import WiredViews.Proofs.PatternRuns

namespace WiredViews

def Marks (name : String) (token : List Char) : Prop :=
  isName name.toList = true ∧ ∃ before after, isAllBlank before = true ∧ isAllBlank after = true ∧
    token = '{' :: '{' :: (before ++ (name.toList ++ (after ++ ['}', '}'])))

def Opens (text : List Char) : Prop :=
  ∃ name token rest, Marks name token ∧ text = token ++ rest

-- No placeholder begins in the stretch, wherever it may end.
def Silent (stretch rest : List Char) : Prop :=
  ∀ front back, stretch = front ++ back → back ≠ [] → ¬ Opens (back ++ rest)

-- The placeholders of a text, each with the stretch before it, and the stretch after the
-- last. Each is the leftmost that is left.
inductive Cut : List Char → List (List Char × String) → List Char → Prop where
  | last {stretch : List Char} (silent : Silent stretch []) : Cut stretch [] stretch
  | mark {stretch token rest last : List Char} {name : String} {rows : List (List Char × String)}
      (silent : Silent stretch (token ++ rest)) (marks : Marks name token) (tail : Cut rest rows last) :
      Cut (stretch ++ (token ++ rest)) ((stretch, name) :: rows) last

theorem Marks.ne_nil {name : String} {token : List Char} (marks : Marks name token) : token ≠ [] := by
  obtain ⟨_, _, _, _, _, rfl⟩ := marks
  exact List.cons_ne_nil _ _

section Pattern
variable {name : String} {text rest : List Char}

theorem placeholder_token {token : List Char} (marks : Marks name token) :
    placeholderPattern (token ++ rest) = some (name, rest) := by
  obtain ⟨named, before, after, left, right, rfl⟩ := marks
  have opening : takeMark ['{', '{'] ('{' :: '{' :: (before ++ (name.toList ++ (after ++ '}' :: '}' :: rest)))) =
      some (before ++ (name.toList ++ (after ++ '}' :: '}' :: rest))) := takeMark_append ['{', '{'] _
  have closing : takeMark ['}', '}'] ('}' :: '}' :: rest) = some rest := takeMark_append ['}', '}'] rest
  have front : skipBlanks (before ++ (name.toList ++ (after ++ '}' :: '}' :: rest))) =
      name.toList ++ (after ++ '}' :: '}' :: rest) := by
    obtain ⟨c, letters, spelled, lower, _⟩ := isName_iff.mp named
    rw [spelled]
    exact skipBlanks_mark left (not_blank_of_isNameChar (isNameChar_of_isLower lower))
  have taken : takeName (name.toList ++ (after ++ '}' :: '}' :: rest)) =
      some (name.toList, after ++ '}' :: '}' :: rest) := takeName_append named (stops_name right (by decide))
  have back : skipBlanks (after ++ '}' :: '}' :: rest) = '}' :: '}' :: rest :=
    skipBlanks_mark right (by decide)
  simp only [List.append_assoc, List.cons_append, List.nil_append, placeholderPattern, Option.bind_eq_bind,
    Option.pure_def, Option.bind_some, opening, front, taken, back, closing, String.ofList_toList]

theorem placeholder_iff :
    placeholderPattern text = some (name, rest) ↔ ∃ token, Marks name token ∧ text = token ++ rest := by
  constructor
  · intro found
    simp only [placeholderPattern, Option.bind_eq_bind, Option.pure_def, Option.bind_eq_some_iff,
      Option.some.injEq, Prod.mk.injEq, Prod.exists] at found
    obtain ⟨inside, opening, letters, behind, taken, _, closing, rfl, rfl⟩ := found
    obtain ⟨before, left, split⟩ := skipBlanks_split inside
    obtain ⟨after, right, resplit⟩ := skipBlanks_split behind
    rw [takeName_split taken] at split
    rw [takeMark_eq_some.mp closing] at resplit
    refine ⟨_, ⟨?_, before, after, left, right, rfl⟩, ?_⟩
    · rw [String.toList_ofList]
      exact isName_of_takeName taken
    · rw [takeMark_eq_some.mp opening, split, resplit, String.toList_ofList]
      simp
  · rintro ⟨token, marks, rfl⟩
    exact placeholder_token marks

theorem placeholder_none : placeholderPattern text = none ↔ ¬ Opens text := by
  rw [← not_iff_not, not_not, ← ne_eq, ← Option.isSome_iff_ne_none, Option.isSome_iff_exists]
  constructor
  · rintro ⟨⟨name, rest⟩, found⟩
    obtain ⟨token, marks, split⟩ := placeholder_iff.mp found
    exact ⟨name, token, rest, marks, split⟩
  · rintro ⟨name, token, rest, marks, split⟩
    exact ⟨(name, rest), placeholder_iff.mpr ⟨token, marks, split⟩⟩

end Pattern

section Segments
variable {stretch token rest : List Char} {name : String}

theorem viewSegments_last (silent : Silent stretch []) :
    viewSegments stretch = stretch.foldr Segment.consChar [] := by
  have whole := segments_stretch fun front back split some_left =>
    placeholder_none.mpr (silent front back split some_left)
  rwa [List.append_nil] at whole

theorem viewSegments_mark (silent : Silent stretch (token ++ rest)) (marks : Marks name token) :
    viewSegments (stretch ++ (token ++ rest)) = stretch.foldr Segment.consChar (.found name :: viewSegments rest) := by
  have whole := segments_stretch fun front back split some_left =>
    placeholder_none.mpr (silent front back split some_left)
  rw [segments_token marks.ne_nil (placeholder_token marks)] at whole
  exact whole

end Segments

section Cuts
variable {text last ending : List Char} {rows others : List (List Char × String)}

theorem silent_nil (rest : List Char) : Silent [] rest := by
  intro front back split some_left
  exact absurd (List.append_eq_nil_iff.mp split.symm).2 some_left

theorem Silent.cons {c : Char} {stretch rest : List Char} (quiet : ¬ Opens (c :: (stretch ++ rest)))
    (silent : Silent stretch rest) : Silent (c :: stretch) rest := by
  intro front back split some_left
  cases front with
  | nil =>
    rw [List.nil_append] at split
    rwa [← split]
  | cons d front => exact silent front back (List.cons.inj split).2 some_left

theorem Cut.cons {c : Char} (quiet : ¬ Opens (c :: text)) (cut : Cut text rows last) :
    ∃ rows last, Cut (c :: text) rows last := by
  cases cut with
  | last silent => exact ⟨_, _, .last (silent.cons (by rwa [List.append_nil]))⟩
  | mark silent marks tail => exact ⟨_, _, .mark (silent.cons quiet) marks tail⟩

theorem exists_cut (text : List Char) : ∃ rows last, Cut text rows last := by
  induction size : text.length using Nat.strongRecOn generalizing text with
  | _ size ih =>
    cases text with
    | nil => exact ⟨[], [], .last (silent_nil [])⟩
    | cons c rest =>
      by_cases opens : Opens (c :: rest)
      · obtain ⟨name, token, left, marks, split⟩ := opens
        have some_token := List.length_pos_iff.mpr marks.ne_nil
        rw [split, List.length_append] at size
        obtain ⟨rows, last, tail⟩ := ih left.length (by omega) left rfl
        rw [split]
        exact ⟨_, _, .mark (silent_nil _) marks tail⟩
      · rw [List.length_cons] at size
        obtain ⟨rows, last, tail⟩ := ih rest.length (by omega) rest rfl
        exact tail.cons opens

def cutOf : List (Segment String) → List (List Char × String) × List Char
  | [] => ([], [])
  | .found name :: pieces => (([], name) :: (cutOf pieces).1, (cutOf pieces).2)
  | .plain stretch :: pieces =>
    match cutOf pieces with
    | ([], last) => ([], stretch ++ last)
    | ((first, name) :: rows, last) => ((stretch ++ first, name) :: rows, last)

theorem cutOf_consChar (c : Char) (pieces : List (Segment String)) :
    cutOf (Segment.consChar c pieces) = cutOf (.plain [c] :: pieces) := by
  cases pieces with
  | nil => rfl
  | cons piece pieces =>
    cases piece with
    | found name => rfl
    | plain stretch =>
      simp only [Segment.consChar, cutOf]
      rcases cutOf pieces with ⟨_ | ⟨⟨first, name⟩, rows⟩, last⟩ <;> rfl

theorem cutOf_last (stretch : List Char) : cutOf (stretch.foldr Segment.consChar []) = ([], stretch) := by
  induction stretch with
  | nil => rfl
  | cons c stretch ih =>
    rw [List.foldr_cons, cutOf_consChar, cutOf, ih]
    rfl

theorem cutOf_mark (stretch : List Char) (name : String) (pieces : List (Segment String)) :
    cutOf (stretch.foldr Segment.consChar (.found name :: pieces)) =
      ((stretch, name) :: (cutOf pieces).1, (cutOf pieces).2) := by
  induction stretch with
  | nil => rfl
  | cons c stretch ih =>
    rw [List.foldr_cons, cutOf_consChar, cutOf, ih]
    rfl

theorem Cut.read (cut : Cut text rows last) : cutOf (viewSegments text) = (rows, last) := by
  induction cut with
  | last silent => rw [viewSegments_last silent, cutOf_last]
  | mark silent marks _ ih => rw [viewSegments_mark silent marks, cutOf_mark, ih]

theorem Cut.unique (cut : Cut text rows last) (other : Cut text others ending) : others = rows ∧ ending = last := by
  have same := other.read.symm.trans cut.read
  exact Prod.mk.inj same

theorem Cut.mem_names (cut : Cut text rows last) {name : String} :
    name ∈ placeholderNames text ↔ ∃ row ∈ rows, row.2 = name := by
  have found : finds placeholderPattern text = rows.map Prod.snd := by
    unfold finds
    induction cut with
    | @last stretch silent =>
      rw [show segments placeholderPattern stretch = _ from viewSegments_last silent, items_stretch]
      rfl
    | @mark stretch token rest _ name _ silent marks _ ih =>
      rw [show segments placeholderPattern (stretch ++ (token ++ rest)) = _ from viewSegments_mark silent marks,
        items_stretch, List.map_cons, ← ih]
      rfl
  rw [placeholderNames, mem_distinct, found, List.mem_map]

end Cuts
end WiredViews
