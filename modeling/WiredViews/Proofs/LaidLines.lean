import WiredViews.Proofs.LineEndings
import WiredViews.Proofs.LineRuns
import WiredViews.Proofs.RegionLines

-- Lines of a text together with lines that are added between them, and where each line of the text
-- stands then.
namespace WiredViews

inductive LaidLine where
  | kept (line : Line)
  | added (line : Line)

def LaidLine.line : LaidLine → Line
  | .kept line => line
  | .added line => line

def LaidLine.kept? : LaidLine → Option Line
  | .kept line => some line
  | .added _ => none

def keptLines (rows : List LaidLine) : List Line :=
  rows.filterMap LaidLine.kept?

def laidLines (rows : List LaidLine) : List Line :=
  rows.map LaidLine.line

def laidOut (above : List Line) (header : Line) (inner : List LaidLine) (below : List Line) : List LaidLine :=
  above.map .kept ++ .kept header :: (inner ++ below.map .kept)

def StandsAt (rows : List LaidLine) (number place : Nat) : Prop :=
  ∃ front line back, rows = front ++ .kept line :: back ∧ number = (keptLines front).length + 1 ∧
    place = front.length + 1

section Lines
variable {rows others front back inner clipped : List LaidLine} {above below written : List Line} {header line : Line}
  {number place : Nat}

@[simp] theorem keptLines_cons_kept : keptLines (.kept line :: rows) = line :: keptLines rows :=
  rfl

@[simp] theorem laidLines_cons (row : LaidLine) (rows : List LaidLine) :
    laidLines (row :: rows) = row.line :: laidLines rows :=
  rfl

theorem keptLines_append (front back : List LaidLine) : keptLines (front ++ back) = keptLines front ++ keptLines back :=
  List.filterMap_append

theorem laidLines_append (front back : List LaidLine) : laidLines (front ++ back) = laidLines front ++ laidLines back :=
  List.map_append

theorem laidLines_length (rows : List LaidLine) : (laidLines rows).length = rows.length :=
  List.length_map _

theorem keptLines_length (rows : List LaidLine) : (keptLines rows).length ≤ rows.length :=
  List.length_filterMap_le _ _

theorem keptLines_kept (lines : List Line) : keptLines (lines.map .kept) = lines := by
  induction lines with
  | nil => rfl
  | cons line rest ih => exact congrArg (line :: ·) ih

theorem laidLines_kept (lines : List Line) : laidLines (lines.map .kept) = lines := by
  induction lines with
  | nil => rfl
  | cons line rest ih => exact congrArg (line :: ·) ih

theorem keptLines_laidOut : keptLines (laidOut above header inner below) =
    above ++ header :: (keptLines inner ++ below) := by
  rw [laidOut, keptLines_append, keptLines_kept, keptLines_cons_kept, keptLines_append, keptLines_kept]

theorem laidLines_laidOut : laidLines (laidOut above header inner below) =
    above ++ header :: (laidLines inner ++ below) := by
  rw [laidOut, laidLines_append, laidLines_kept, laidLines_cons, laidLines_append, laidLines_kept]
  rfl

theorem mem_keptLines : line ∈ keptLines rows ↔ .kept line ∈ rows := by
  unfold keptLines
  rw [List.mem_filterMap]
  constructor
  · intro given
    obtain ⟨row, listed, kept⟩ := given
    cases row with
    | kept other =>
      cases kept
      exact listed
    | added other => cases kept
  · exact fun listed => ⟨_, listed, rfl⟩

theorem standsAt_below (split : inner ++ below.map .kept = front ++ .kept line :: back) :
    StandsAt (laidOut above header inner below) (above.length + 2 + (keptLines front).length)
      (above.length + 2 + front.length) := by
  refine ⟨above.map .kept ++ .kept header :: front, line, back, ?_, ?_, ?_⟩
  · rw [laidOut, split, List.append_assoc, List.cons_append]
  · rw [keptLines_append, keptLines_kept, keptLines_cons_kept, List.length_append, List.length_cons]
    omega
  · simp only [List.length_append, List.length_map, List.length_cons]
    omega

theorem standsAt_header : StandsAt (laidOut above header inner below) (above.length + 1) (above.length + 1) :=
  ⟨above.map .kept, header, inner ++ below.map .kept, rfl, by rw [keptLines_kept], by rw [List.length_map]⟩

theorem standsAt_view {offset : Nat} (within : offset < below.length) :
    StandsAt (laidOut above header inner below) (above.length + 2 + (keptLines inner).length + offset)
      (above.length + 2 + inner.length + offset) := by
  have split : inner ++ below.map .kept = (inner ++ (below.take offset).map .kept) ++
      .kept below[offset] :: (below.drop (offset + 1)).map .kept := by
    rw [List.append_assoc, ← List.map_cons, ← List.map_append, List.getElem_cons_drop, List.take_append_drop]
  have place := @standsAt_below _ _ inner above below header _ split
  rw [keptLines_append, keptLines_kept, List.length_append, List.length_append, List.length_map, List.length_take,
    Nat.min_eq_left (Nat.le_of_lt within), ← Nat.add_assoc, ← Nat.add_assoc] at place
  exact place

theorem clips_inner (clips : List.Forall₂ Clips (laidLines inner) written)
    (bare : ∀ line ∈ keptLines inner, '\r' ∉ line) :
    ∃ clipped, written = laidLines clipped ∧ clipped.map LaidLine.kept? = inner.map LaidLine.kept? ∧
      ∀ line, .added line ∈ clipped → ∃ whole, .added whole ∈ inner ∧ Clips whole line := by
  induction inner generalizing written with
  | nil =>
    cases clips
    exact ⟨[], rfl, rfl, by simp⟩
  | cons row rest ih =>
    cases clips with
    | @cons _ line _ written first later =>
      cases row with
      | kept whole =>
        obtain ⟨here, others⟩ := List.forall_mem_cons.mp bare
        obtain ⟨clipped, rfl, same, added⟩ := ih later others
        have unclipped : line = whole := first.bare here
        refine ⟨.kept line :: clipped, rfl, ?_, ?_⟩
        · rw [List.map_cons, List.map_cons, same, unclipped]
        · intro line listed
          rcases List.mem_cons.mp listed with here | there
          · cases here
          · obtain ⟨whole, given, clips⟩ := added line there
            exact ⟨whole, List.mem_cons_of_mem _ given, clips⟩
      | added whole =>
        obtain ⟨clipped, rfl, same, added⟩ := ih later bare
        refine ⟨.added line :: clipped, rfl, ?_, ?_⟩
        · rw [List.map_cons, List.map_cons, same]
          rfl
        · intro line listed
          rcases List.mem_cons.mp listed with here | there
          · cases here
            exact ⟨whole, by simp, first⟩
          · obtain ⟨whole, given, clips⟩ := added line there
            exact ⟨whole, List.mem_cons_of_mem _ given, clips⟩

theorem laidOut_reshaped (same : clipped.map LaidLine.kept? = inner.map LaidLine.kept?) :
    (laidOut above header clipped below).map LaidLine.kept? = (laidOut above header inner below).map LaidLine.kept? := by
  simp only [laidOut, List.map_append, List.map_cons, same]

theorem numbered_middle (front back : List Line) (line : Line) :
    (front.length + 1, line) ∈ numberLines (· + 1) (front ++ line :: back) := by
  rw [numberLines_append, numberLines_cons, Nat.add_comm 1]
  exact List.mem_append_right _ List.mem_cons_self

theorem StandsAt.named (stands : StandsAt rows number place) : ∃ line,
    (number, line) ∈ numberLines (· + 1) (keptLines rows) ∧ (place, line) ∈ numberLines (· + 1) (laidLines rows) := by
  obtain ⟨front, line, back, rfl, rfl, rfl⟩ := stands
  rw [keptLines_append, laidLines_append, ← laidLines_length front]
  exact ⟨line, numbered_middle _ _ _, numbered_middle _ _ _⟩

theorem keptLines_reshaped (same : others.map LaidLine.kept? = rows.map LaidLine.kept?) :
    keptLines others = keptLines rows := by
  have parts := congrArg (List.filterMap id) same
  rwa [List.filterMap_map, List.filterMap_map] at parts

theorem StandsAt.reshaped (stands : StandsAt rows number place)
    (same : others.map LaidLine.kept? = rows.map LaidLine.kept?) : StandsAt others number place := by
  obtain ⟨front, line, back, rfl, rfl, rfl⟩ := stands
  rw [List.map_append, List.map_cons, List.map_eq_append_iff] at same
  obtain ⟨before, after, rfl, same_front, same_rest⟩ := same
  obtain ⟨row, rest, rfl, found, _⟩ := List.map_eq_cons_iff.mp same_rest
  have length : before.length = front.length := by
    have lengths := congrArg List.length same_front
    rwa [List.length_map, List.length_map] at lengths
  cases row with
  | added line => cases found
  | kept line =>
    cases found
    exact ⟨before, line, rest, rfl, by rw [keptLines_reshaped same_front], by rw [length]⟩

end Lines

section Numbers
variable {rows : List LaidLine}

def keptRows : Nat → Nat → List LaidLine → List ((Nat × Nat) × Line)
  | _, _, [] => []
  | number, place, .kept line :: rest => ((number, place), line) :: keptRows (number + 1) (place + 1) rest
  | number, place, .added _ :: rest => keptRows number (place + 1) rest

theorem keptRows_numbers (number place : Nat) (rows : List LaidLine) :
    (keptRows number place rows).map (fun row => (row.1.1, row.2)) = numberLines (· + number) (keptLines rows) := by
  induction rows generalizing number place with
  | nil => rfl
  | cons row rest ih =>
    cases row with
    | kept line => rw [keptRows, List.map_cons, ih, keptLines_cons_kept, numberLines_cons]
    | added line => exact ih number (place + 1)

theorem keptRows_places (number place : Nat) (ignored : ∀ line, .added line ∈ rows → isIgnorable line = true) :
    countedRows (numberLines (· + place) (laidLines rows)) =
      countedRows ((keptRows number place rows).map fun row => (row.1.2, row.2)) := by
  induction rows generalizing number place with
  | nil => rfl
  | cons row rest ih =>
    have later := fun number place => ih number place fun line listed => ignored line (List.mem_cons_of_mem _ listed)
    unfold countedRows at later ⊢
    cases row with
    | kept line =>
      rw [laidLines_cons, numberLines_cons, keptRows, List.map_cons, List.filter_cons, List.filter_cons,
        later (number + 1)]
      rfl
    | added line =>
      have unread : isIgnorable (LaidLine.added line).line = true := ignored line (by simp)
      rw [laidLines_cons, numberLines_cons, List.filter_cons_of_neg (by simp [unread]), keptRows, later number]

theorem mem_keptRows {number place : Nat} {row : (Nat × Nat) × Line} (listed : row ∈ keptRows number place rows) :
    ∃ front back, rows = front ++ .kept row.2 :: back ∧ row.1.1 = number + (keptLines front).length ∧
      row.1.2 = place + front.length := by
  induction rows generalizing number place with
  | nil => cases listed
  | cons first rest ih =>
    cases first with
    | kept line =>
      rcases List.mem_cons.mp listed with rfl | later
      · exact ⟨[], rest, rfl, rfl, rfl⟩
      · obtain ⟨front, back, rfl, numbered, placed⟩ := ih later
        refine ⟨.kept line :: front, back, rfl, ?_, ?_⟩
        · rw [numbered, keptLines_cons_kept, List.length_cons]
          omega
        · rw [placed, List.length_cons]
          omega
    | added line =>
      obtain ⟨front, back, rfl, numbered, placed⟩ := ih listed
      refine ⟨.added line :: front, back, rfl, numbered, ?_⟩
      rw [placed, List.length_cons]
      omega

end Numbers
end WiredViews
