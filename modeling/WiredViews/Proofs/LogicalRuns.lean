import Mathlib.Data.List.Forall2
import WiredViews.LogicalLines
import WiredViews.Proofs.Spacing

namespace WiredViews

def Ignorable (line : Line) : Prop :=
  line.dropWhile isIndent = [] ∨ ['/', '/'] <+: line.dropWhile isIndent

instance (line : Line) : Decidable (Ignorable line) :=
  inferInstanceAs (Decidable (_ ∨ _))

def Continues (line : Line) (piece : List Char) : Prop :=
  Trims line (piece ++ [continuation])

def Closes (line : Line) (piece : List Char) : Prop :=
  Trims line piece ∧ piece.getLast? ≠ some continuation

theorem isIgnorable_iff {line : Line} (plain : '\n' ∉ line) : isIgnorable line = true ↔ Ignorable line := by
  unfold isIgnorable Ignorable
  split
  · rename_i nothing
    simp [nothing]
  · rename_i feed
    have member : '\n' ∈ line.dropWhile isIndent := by simp [feed]
    exact absurd (List.dropWhile_subset isIndent member) plain
  · rename_i rest comment
    simp [comment]
  · rename_i some_text _ no_comment
    constructor
    · intro ignored
      cases ignored
    · intro given
      rcases given with nothing | ⟨rest, comment⟩
      · exact absurd nothing some_text
      · exact absurd comment.symm (no_comment rest)

section Runs
variable {ν : Type}

-- What lines come to that are neither blank nor comments. A run that is not closed counts
-- unless it is blank.
inductive Runs : List (ν × Line) → List (LogicalLine ν) → Prop where
  | done : Runs [] []
  | closed {number : ν} {opens rest : List (ν × Line)} {closing : ν × Line} {pieces : List (List Char)}
      {last text : List Char} {logical : List (LogicalLine ν)}
      (starts : ((opens ++ [closing]).head?).map Prod.fst = some number)
      (continued : List.Forall₂ (fun row piece => Continues row.2 piece) opens pieces)
      (closes : Closes closing.2 last) (trimmed : Trims (pieces.flatten ++ last) text)
      (later : Runs rest logical) : Runs (opens ++ closing :: rest) (⟨number, text⟩ :: logical)
  | unclosed {number : ν} {opens : List (ν × Line)} {pieces : List (List Char)} {text : List Char}
      (starts : (opens.head?).map Prod.fst = some number)
      (continued : List.Forall₂ (fun row piece => Continues row.2 piece) opens pieces)
      (trimmed : Trims pieces.flatten text) (some_text : text ≠ []) : Runs opens [⟨number, text⟩]
  | blank {opens : List (ν × Line)} {pieces : List (List Char)} (some_line : opens ≠ [])
      (continued : List.Forall₂ (fun row piece => Continues row.2 piece) opens pieces)
      (trimmed : Trims pieces.flatten []) : Runs opens []

theorem extend_continues {line : Line} {piece : List Char} (continues : Continues line piece)
    (before : Unfinished ν) : before.extend line = (⟨before.start, before.text ++ piece⟩, true) := by
  unfold Unfinished.extend
  rw [trims_exact.mp continues]
  simp

theorem extend_closes {line : Line} {piece : List Char} (closes : Closes line piece) (before : Unfinished ν) :
    before.extend line = (⟨before.start, before.text ++ piece⟩, false) := by
  unfold Unfinished.extend
  rw [trims_exact.mp closes.1]
  simp [closes.2]

theorem continues_or_closes (line : Line) :
    (∃ piece, Continues line piece) ∨ ∃ piece, Closes line piece := by
  by_cases open_ : (trim line).getLast? = some continuation
  · obtain ⟨piece, split⟩ := List.getLast?_eq_some_iff.mp open_
    exact Or.inl ⟨piece, trims_exact.mpr split⟩
  · exact Or.inr ⟨trim line, trims_trim line, open_⟩

section Lines
variable {pending : Option (Unfinished ν)} {row : ν × Line} {rest : List (ν × Line)} {start : ν}
  {sofar piece : List Char}

theorem assembleFrom_continues (solid : isIgnorable row.2 = false) (continues : Continues row.2 piece)
    (before : pending.getD ⟨row.1, []⟩ = ⟨start, sofar⟩) :
    assembleFrom pending (row :: rest) = assembleFrom (some ⟨start, sofar ++ piece⟩) rest := by
  have longer := extend_continues continues (pending.getD ⟨row.1, []⟩)
  rw [before] at longer
  cases pending <;> simp only [assembleFrom, solid, before, longer, Bool.false_eq_true, if_false]

theorem assembleFrom_closes (solid : isIgnorable row.2 = false) (closes : Closes row.2 piece)
    (before : pending.getD ⟨row.1, []⟩ = ⟨start, sofar⟩) :
    assembleFrom pending (row :: rest) = ⟨start, trim (sofar ++ piece)⟩ :: assembleFrom none rest := by
  have whole := extend_closes closes (pending.getD ⟨row.1, []⟩)
  rw [before] at whole
  cases pending <;>
    simp only [assembleFrom, solid, before, whole, Bool.false_eq_true, if_false, Unfinished.finish]

end Lines

theorem assembleFrom_ignored {pending : Option (Unfinished ν)} {row : ν × Line} {rest : List (ν × Line)}
    (ignored : isIgnorable row.2 = true) : assembleFrom pending (row :: rest) = assembleFrom pending rest := by
  cases pending <;> simp [assembleFrom, ignored]

theorem assembleFrom_filter (pending : Option (Unfinished ν)) (rows : List (ν × Line)) :
    assembleFrom pending rows = assembleFrom pending (rows.filter fun row => !isIgnorable row.2) := by
  induction rows generalizing pending with
  | nil => rfl
  | cons row rest ih =>
    cases ignored : isIgnorable row.2 with
    | true => rw [assembleFrom_ignored ignored, List.filter_cons_of_neg (by simp [ignored]), ih]
    | false =>
      rw [List.filter_cons_of_pos (by simp [ignored])]
      rcases continues_or_closes row.2 with ⟨piece, continues⟩ | ⟨piece, closes⟩
      · rw [assembleFrom_continues ignored continues rfl, assembleFrom_continues ignored continues rfl, ih]
      · rw [assembleFrom_closes ignored closes rfl, assembleFrom_closes ignored closes rfl, ih]

theorem assembleFrom_continued {opens rest : List (ν × Line)} {pieces : List (List Char)}
    (solid : ∀ row ∈ opens, isIgnorable row.2 = false)
    (continued : List.Forall₂ (fun row piece => Continues row.2 piece) opens pieces) (start : ν)
    (sofar : List Char) : assembleFrom (some ⟨start, sofar⟩) (opens ++ rest) =
      assembleFrom (some ⟨start, sofar ++ pieces.flatten⟩) rest := by
  induction continued generalizing sofar with
  | nil => simp
  | @cons row piece opens pieces continues _ ih =>
    rw [List.forall_mem_cons] at solid
    rw [List.cons_append, assembleFrom_continues solid.1 continues rfl, ih solid.2, List.flatten_cons,
      List.append_assoc]

theorem assembleFrom_opened {opens rest : List (ν × Line)} {pieces : List (List Char)} {number : ν}
    (solid : ∀ row ∈ opens, isIgnorable row.2 = false)
    (continued : List.Forall₂ (fun row piece => Continues row.2 piece) opens pieces)
    (starts : (opens.head?).map Prod.fst = some number) :
    assembleFrom none (opens ++ rest) = assembleFrom (some ⟨number, pieces.flatten⟩) rest := by
  cases continued with
  | nil => cases starts
  | @cons row piece opens pieces continues more =>
    cases starts
    rw [List.forall_mem_cons] at solid
    rw [List.cons_append, assembleFrom_continues solid.1 continues rfl, assembleFrom_continued solid.2 more,
      List.flatten_cons, List.nil_append]

theorem runs_assemble {rows : List (ν × Line)} {logical : List (LogicalLine ν)} (runs : Runs rows logical)
    (solid : ∀ row ∈ rows, isIgnorable row.2 = false) : assembleFrom none rows = logical := by
  induction runs with
  | done => rfl
  | @closed number opens rest closing pieces last text logical starts continued closes trimmed _ ih =>
    simp only [List.forall_mem_append, List.forall_mem_cons] at solid
    obtain ⟨solidOpens, solidClosing, solidRest⟩ := solid
    have finished : ∀ pending : Option (Unfinished ν),
        pending.getD ⟨closing.1, []⟩ = ⟨number, pieces.flatten⟩ →
        assembleFrom pending (closing :: rest) = ⟨number, text⟩ :: logical := by
      intro pending same
      rw [assembleFrom_closes solidClosing closes same, trims_exact.mp trimmed, ih solidRest]
    cases opens with
    | nil =>
      cases continued
      cases starts
      exact finished none rfl
    | cons row opens =>
      rw [assembleFrom_opened solidOpens continued starts]
      exact finished _ rfl
  | @unclosed number opens pieces text starts continued trimmed some_text =>
    have opened := @assembleFrom_opened ν opens [] pieces number solid continued starts
    have visible : isAllBlank pieces.flatten = false := by
      rw [Bool.eq_false_iff, ne_eq, ← trim_eq_nil, trims_exact.mp trimmed]
      exact some_text
    rw [List.append_nil] at opened
    rw [opened, assembleFrom, visible]
    simp [Unfinished.finish, trims_exact.mp trimmed]
  | @blank opens pieces some_line continued trimmed =>
    obtain ⟨row, more, rfl⟩ := List.exists_cons_of_ne_nil some_line
    have opened := @assembleFrom_opened ν (row :: more) [] pieces row.1 solid continued rfl
    have hidden : isAllBlank pieces.flatten = true := trim_eq_nil.mp (trims_exact.mp trimmed)
    rw [List.append_nil] at opened
    rw [opened, assembleFrom, hidden]
    rfl

-- The induction is on what is still to be read, with and without a run that is open.
theorem assemble_runs {rows : List (ν × Line)} (solid : ∀ row ∈ rows, isIgnorable row.2 = false) :
    Runs rows (assembleFrom none rows) ∧ ∀ (opens : List (ν × Line)) (pieces : List (List Char)) (number : ν),
      (opens.head?).map Prod.fst = some number →
      List.Forall₂ (fun row piece => Continues row.2 piece) opens pieces →
      Runs (opens ++ rows) (assembleFrom (some ⟨number, pieces.flatten⟩) rows) := by
  induction rows with
  | nil =>
    refine ⟨.done, fun opens pieces number starts continued => ?_⟩
    rw [List.append_nil, assembleFrom]
    split
    · rename_i hidden
      refine .blank ?_ continued (trims_exact.mpr (trim_eq_nil.mpr hidden))
      rintro rfl
      cases starts
    · rename_i visible
      exact .unclosed starts continued (trims_trim _) fun empty => visible (trim_eq_nil.mp empty)
  | cons row rest ih =>
    rw [List.forall_mem_cons] at solid
    obtain ⟨closed, opened⟩ := ih solid.2
    rcases continues_or_closes row.2 with ⟨piece, continues⟩ | ⟨piece, closes⟩
    · constructor
      · have longer := opened [row] [piece] row.1 rfl (.cons continues .nil)
        rw [assembleFrom_continues solid.1 continues rfl]
        simpa using longer
      · intro opens pieces number starts continued
        have longer := opened (opens ++ [row]) (pieces ++ [piece]) number ?_ ?_
        · rw [assembleFrom_continues solid.1 continues rfl]
          simpa using longer
        · cases opens with
          | nil => cases starts
          | cons first more => exact starts
        · exact List.rel_append continued (.cons continues .nil)
    · constructor
      · rw [assembleFrom_closes solid.1 closes rfl]
        exact @Runs.closed ν row.1 [] rest row [] piece _ _ rfl .nil closes (trims_trim _) closed
      · intro opens pieces number starts continued
        rw [assembleFrom_closes solid.1 closes rfl]
        refine .closed ?_ continued closes (trims_trim _) closed
        cases opens with
        | nil => cases starts
        | cons first more => exact starts

theorem runs_exact {rows : List (ν × Line)} {logical : List (LogicalLine ν)} :
    Runs (rows.filter fun row => !isIgnorable row.2) logical ↔ assemble rows = logical := by
  have solid : ∀ row ∈ rows.filter (fun row => !isIgnorable row.2), isIgnorable row.2 = false := by
    intro row kept
    simpa using (List.mem_filter.mp kept).2
  rw [assemble, assembleFrom_filter]
  constructor
  · intro runs
    exact runs_assemble runs solid
  · rintro rfl
    exact (assemble_runs solid).1

end Runs
end WiredViews
