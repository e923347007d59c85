import WiredViews.Proofs.LogicalRuns
import WiredViews.Proofs.PhysicalLines

-- The runs of physical lines that logical lines are gathered from. Lines part into runs in one
-- way only, and every run comes to one logical line, but for a blank one that is left open.
namespace WiredViews

def IsContinued (line : Line) : Prop :=
  (trim line).getLast? = some continuation

instance (line : Line) : Decidable (IsContinued line) :=
  inferInstanceAs (Decidable (_ = _))

structure LineRun (ν : Type) where
  opens : List (ν × Line)
  closing : Option (ν × Line)

namespace LineRun
variable {ν : Type}

def rows (run : LineRun ν) : List (ν × Line) :=
  run.opens ++ run.closing.toList

def text (run : LineRun ν) : List Char :=
  trim ((run.opens.flatMap fun row => (trim row.2).dropLast) ++ run.closing.elim [] fun row => trim row.2)

def counts (run : LineRun ν) : Bool :=
  run.closing.isSome || !run.text.isEmpty

structure Proper (run : LineRun ν) : Prop where
  some_row : run.rows ≠ []
  opens : ∀ row ∈ run.opens, IsContinued row.2
  closing : ∀ row ∈ run.closing, ¬ IsContinued row.2

structure Spells (run : LineRun ν) (line : LogicalLine ν) : Prop where
  number : run.rows.head?.map Prod.fst = some line.number
  text : line.text = run.text

end LineRun

-- Every row is in one run, and only the last run may be open.
structure PartsInto {ν : Type} (rows : List (ν × Line)) (runs : List (LineRun ν)) : Prop where
  rows : runs.flatMap LineRun.rows = rows
  proper : ∀ run ∈ runs, run.Proper
  closed : ∀ run ∈ runs.dropLast, run.closing ≠ none

def countedRows {ν : Type} (rows : List (ν × Line)) : List (ν × Line) :=
  rows.filter fun row => !isIgnorable row.2

def numberedFrom (first : Int) (lines : List Line) : List (Int × Line) :=
  numberLines (fun offset => first + (offset : Int)) lines

section Lines
variable {line : Line} {piece : List Char}

theorem continues_iff : Continues line piece ↔ IsContinued line ∧ (trim line).dropLast = piece := by
  unfold Continues IsContinued
  rw [trims_exact]
  constructor
  · intro trimmed
    simp [trimmed]
  · intro given
    obtain ⟨front, split⟩ := List.getLast?_eq_some_iff.mp given.1
    rw [← given.2, split, List.dropLast_concat]

theorem closes_iff : Closes line piece ↔ ¬ IsContinued line ∧ trim line = piece := by
  unfold Closes IsContinued
  rw [trims_exact]
  constructor
  · intro given
    obtain ⟨rfl, last⟩ := given
    exact ⟨last, rfl⟩
  · intro given
    obtain ⟨last, rfl⟩ := given
    exact ⟨rfl, last⟩

end Lines

section Parting
variable {ν : Type} {rows opens : List (ν × Line)} {run : LineRun ν} {runs others : List (LineRun ν)}
  {logical : List (LogicalLine ν)} {pieces : List (List Char)}

theorem continued_pieces (continued : List.Forall₂ (fun row piece => Continues row.2 piece) opens pieces) :
    (∀ row ∈ opens, IsContinued row.2) ∧ pieces.flatten = opens.flatMap fun row => (trim row.2).dropLast := by
  induction continued with
  | nil => simp
  | @cons row piece opens pieces continues _ ih =>
    obtain ⟨here, rest⟩ := continues_iff.mp continues
    refine ⟨List.forall_mem_cons.mpr ⟨here, ih.1⟩, ?_⟩
    rw [List.flatten_cons, List.flatMap_cons, ih.2, rest]

theorem PartsInto.cons (parted : PartsInto rows runs) (proper : run.Proper) (closed : run.closing ≠ none) :
    PartsInto (run.rows ++ rows) (run :: runs) := by
  refine ⟨?_, List.forall_mem_cons.mpr ⟨proper, parted.proper⟩, ?_⟩
  · rw [List.flatMap_cons, parted.rows]
  · cases runs with
    | nil => simp
    | cons next runs => exact List.forall_mem_cons.mpr ⟨closed, parted.closed⟩

theorem partsInto_single (proper : run.Proper) : PartsInto run.rows [run] :=
  ⟨by simp, by simpa using proper, by simp⟩

theorem PartsInto.first (parted : PartsInto rows (run :: runs)) :
    run.opens = rows.takeWhile (fun row => IsContinued row.2) ∧
      run.closing = (rows.dropWhile fun row => IsContinued row.2).head? ∧
      PartsInto (rows.dropWhile fun row => IsContinued row.2).tail runs := by
  obtain ⟨opens, closing⟩ := run
  obtain ⟨proper, others⟩ := List.forall_mem_cons.mp parted.proper
  have whole := parted.rows
  have all : ∀ row ∈ opens, decide (IsContinued row.2) = true := by simpa using proper.opens
  rw [List.flatMap_cons, LineRun.rows] at whole
  cases closing with
  | none =>
    cases runs with
    | cons next runs => exact absurd rfl (parted.closed ⟨opens, none⟩ (by simp))
    | nil =>
      have same : opens ++ [] = rows := by simpa using whole
      have stretch := @takeWhile_stretch _ (fun row : ν × Line => decide (IsContinued row.2)) opens [] all (by simp)
      have rest := @dropWhile_stretch _ (fun row : ν × Line => decide (IsContinued row.2)) opens [] all (by simp)
      rw [same] at stretch rest
      rw [stretch, rest]
      exact ⟨rfl, rfl, rfl, by simp, by simp⟩
  | some last =>
    have same : opens ++ last :: runs.flatMap LineRun.rows = rows := by simpa using whole
    have stop : ∀ row ∈ (last :: runs.flatMap LineRun.rows).head?, decide (IsContinued row.2) = false := by
      simpa using proper.closing
    have stretch := takeWhile_stretch all stop
    have rest := dropWhile_stretch all stop
    rw [same] at stretch rest
    rw [stretch, rest]
    refine ⟨rfl, rfl, rfl, others, ?_⟩
    intro other listed
    apply parted.closed
    cases runs with
    | nil => cases listed
    | cons next runs => exact List.mem_cons_of_mem _ listed

theorem PartsInto.unique (parted : PartsInto rows runs) (again : PartsInto rows others) : others = runs := by
  induction runs generalizing rows others with
  | nil =>
    have nothing : rows = [] := parted.rows.symm
    cases others with
    | nil => rfl
    | cons run others =>
      have empty : run.rows ++ others.flatMap LineRun.rows = [] := again.rows.trans nothing
      exact absurd (List.append_eq_nil_iff.mp empty).1 (again.proper run (by simp)).some_row
  | cons run runs ih =>
    obtain ⟨opens, closing, rest⟩ := parted.first
    cases others with
    | nil =>
      have nothing : rows = [] := again.rows.symm
      have empty : run.rows ++ runs.flatMap LineRun.rows = [] := parted.rows.trans nothing
      exact absurd (List.append_eq_nil_iff.mp empty).1 (parted.proper run (by simp)).some_row
    | cons other others =>
      obtain ⟨otherOpens, otherClosing, otherRest⟩ := again.first
      have same : other = run := by
        cases run
        cases other
        simp_all
      rw [same, ih rest otherRest]

theorem Runs.parted (given : Runs rows logical) :
    ∃ runs, PartsInto rows runs ∧ List.Forall₂ LineRun.Spells (runs.filter LineRun.counts) logical := by
  induction given with
  | done => exact ⟨[], ⟨rfl, by simp, by simp⟩, .nil⟩
  | @closed number opens rest closing pieces last text logical starts continued closes trimmed _ ih =>
    obtain ⟨runs, parted, spelled⟩ := ih
    obtain ⟨all, joined⟩ := continued_pieces continued
    obtain ⟨ended, rfl⟩ := closes_iff.mp closes
    have proper : LineRun.Proper ⟨opens, some closing⟩ := ⟨by simp [LineRun.rows], all, by simpa using ended⟩
    refine ⟨⟨opens, some closing⟩ :: runs, ?_, ?_⟩
    · have whole := parted.cons proper (by simp)
      simpa [LineRun.rows] using whole
    · rw [List.filter_cons_of_pos (by simp [LineRun.counts])]
      refine .cons ⟨starts, ?_⟩ spelled
      rw [← trims_exact.mp trimmed, joined]
      rfl
  | @unclosed number opens pieces text starts continued trimmed some_text =>
    obtain ⟨all, joined⟩ := continued_pieces continued
    have same : LineRun.text (⟨opens, none⟩ : LineRun ν) = text := by
      rw [← trims_exact.mp trimmed, joined, LineRun.text, Option.elim_none, List.append_nil]
    have some_row : opens ≠ [] := by
      intro nothing
      subst nothing
      cases starts
    have proper : LineRun.Proper ⟨opens, none⟩ := ⟨by simpa [LineRun.rows] using some_row, all, by simp⟩
    refine ⟨[⟨opens, none⟩], ?_, ?_⟩
    · have whole := partsInto_single proper
      simpa [LineRun.rows] using whole
    · rw [List.filter_cons_of_pos (by simpa [LineRun.counts, same] using some_text)]
      refine .cons ⟨?_, same.symm⟩ .nil
      simpa [LineRun.rows] using starts
  | @blank opens pieces some_line continued trimmed =>
    obtain ⟨all, joined⟩ := continued_pieces continued
    have nothing : LineRun.text (⟨opens, none⟩ : LineRun ν) = [] := by
      rw [← trims_exact.mp trimmed, joined, LineRun.text, Option.elim_none, List.append_nil]
    have proper : LineRun.Proper ⟨opens, none⟩ := ⟨by simpa [LineRun.rows] using some_line, all, by simp⟩
    refine ⟨[⟨opens, none⟩], ?_, ?_⟩
    · have whole := partsInto_single proper
      simpa [LineRun.rows] using whole
    · rw [List.filter_cons_of_neg (by simp [LineRun.counts, nothing])]
      exact .nil

theorem Runs.numbers (given : Runs rows logical) :
    (logical.map LogicalLine.number).Sublist (rows.map Prod.fst) := by
  induction given with
  | done => exact .slnil
  | @closed number opens rest closing pieces last text logical starts _ _ _ _ ih =>
    obtain ⟨first, more, split⟩ := List.exists_cons_of_ne_nil (show opens ++ [closing] ≠ [] by simp)
    have whole : opens ++ closing :: rest = first :: (more ++ rest) := by
      rw [← List.cons_append, ← split, List.append_assoc, List.singleton_append]
    rw [split] at starts
    cases starts
    rw [whole, List.map_cons, List.map_cons, List.map_append]
    exact (ih.trans (List.sublist_append_right _ _)).cons_cons _
  | @unclosed number opens pieces text starts _ _ _ =>
    cases opens with
    | nil => cases starts
    | cons first opens =>
      cases starts
      exact (List.nil_sublist _).cons_cons _
  | blank => exact List.nil_sublist _

end Parting

section Numbers
variable {ν : Type} {first number : Int} {lines : List Line}

theorem runs_assembled (rows : List (ν × Line)) : Runs (countedRows rows) (assemble rows) :=
  runs_exact.mpr rfl

theorem assemble_numbers (rows : List (ν × Line)) :
    ((assemble rows).map LogicalLine.number).Sublist (rows.map Prod.fst) :=
  (runs_assembled rows).numbers.trans (List.filter_sublist.map Prod.fst)

theorem numberedFrom_numbers (first : Int) (lines : List Line) :
    (numberedFrom first lines).map Prod.fst = (List.range lines.length).map fun offset : Nat => first + (offset : Int) := by
  apply List.ext_getElem
  · simp [numberedFrom, numberLines]
  · intro place _ _
    simp [numberedFrom, numberLines]

theorem numberedFrom_rising (first : Int) (lines : List Line) :
    ((numberedFrom first lines).map Prod.fst).Pairwise (· < ·) := by
  rw [numberedFrom_numbers]
  apply List.Pairwise.map _ _ List.pairwise_lt_range
  intro low high less
  omega

theorem numberedFrom_within (listed : number ∈ (numberedFrom first lines).map Prod.fst) :
    first ≤ number ∧ number ≤ first + lines.length - 1 := by
  rw [numberedFrom_numbers] at listed
  obtain ⟨offset, within, rfl⟩ := List.mem_map.mp listed
  have bound := List.mem_range.mp within
  omega

end Numbers

theorem assemble_partsInto (first : Int) (lines : List Line) :
    ∃ runs, PartsInto (countedRows (numberedFrom first lines)) runs ∧
      (∀ others, PartsInto (countedRows (numberedFrom first lines)) others → others = runs) ∧
      List.Forall₂ LineRun.Spells (runs.filter LineRun.counts) (assemble (numberedFrom first lines)) ∧
      (assemble (numberedFrom first lines)).Pairwise (fun line later => line.number < later.number) ∧
      ∀ line ∈ assemble (numberedFrom first lines),
        first ≤ line.number ∧ line.number ≤ first + lines.length - 1 := by
  have numbers := assemble_numbers (numberedFrom first lines)
  obtain ⟨runs, parted, spelled⟩ := (runs_assembled (numberedFrom first lines)).parted
  refine ⟨runs, parted, fun others again => parted.unique again, spelled, ?_, ?_⟩
  · exact List.pairwise_map.mp ((numberedFrom_rising first lines).sublist numbers)
  · intro line listed
    exact numberedFrom_within (numbers.subset (List.mem_map_of_mem listed))

def moorings : List Line :=
  ["$quay = 'Oslo \\", "  // by night", "\\", "", "  fjord\\\\ \t", "  '", "// none", "\\", " \\"].map String.toList

def mooredRuns : List (LineRun Int) :=
  [⟨[(-2, "$quay = 'Oslo \\".toList), (0, ['\\']), (2, "  fjord\\\\ \t".toList)], some (3, "  '".toList)⟩,
    ⟨[(5, ['\\']), (6, [' ', '\\'])], none⟩]

theorem moorings_parted : PartsInto (countedRows (numberedFrom (-2) moorings)) mooredRuns ∧
    assemble (numberedFrom (-2) moorings) = [⟨-2, "$quay = 'Oslo fjord\\'".toList⟩] ∧
    List.Forall₂ LineRun.Spells (mooredRuns.filter LineRun.counts) (assemble (numberedFrom (-2) moorings)) := by
  have parted : PartsInto (countedRows (numberedFrom (-2) moorings)) mooredRuns := by
    refine ⟨by decide +kernel, ?_, by decide +kernel⟩
    simp only [mooredRuns, List.forall_mem_cons]
    exact ⟨⟨by decide, by decide +kernel, by decide +kernel⟩, ⟨by decide, by decide +kernel, by simp⟩, by simp⟩
  obtain ⟨runs, _, unique, spelled, _⟩ := assemble_partsInto (-2) moorings
  rw [← unique mooredRuns parted] at spelled
  exact ⟨parted, by decide +kernel, spelled⟩

end WiredViews
