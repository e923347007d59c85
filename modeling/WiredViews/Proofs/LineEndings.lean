import Mathlib.Data.List.Forall2
import WiredViews.Proofs.LogicalRuns
import WiredViews.Proofs.PhysicalLines

namespace WiredViews

def withReturns : List Bool → List Char → List Char
  | _, [] => []
  | true :: marks, '\n' :: rest => '\r' :: '\n' :: withReturns marks rest
  | false :: marks, '\n' :: rest => '\n' :: withReturns marks rest
  | marks, c :: rest => c :: withReturns marks rest

-- One carriage return at the end of a line may be taken for a part of its ending.
def Clips (line clipped : Line) : Prop :=
  clipped = line ∨ line = clipped ++ ['\r']

section Lines
variable {marks : List Bool} {line clipped : Line} {lines more written : List Line} {rest : List Char}

theorem Clips.bare (clips : Clips line clipped) (bare : '\r' ∉ line) : clipped = line := by
  rcases clips with same | ended
  · exact same
  · rw [ended] at bare
    simp at bare

theorem Clips.ignorable (clips : Clips line clipped) (ignorable : Ignorable line) : Ignorable clipped := by
  rcases clips with rfl | rfl
  · exact ignorable
  · unfold Ignorable at ignorable ⊢
    rw [List.dropWhile_append] at ignorable
    cases front : clipped.dropWhile isIndent with
    | nil => exact Or.inl rfl
    | cons c text =>
      simp only [front, List.isEmpty_cons, Bool.false_eq_true, if_false] at ignorable
      rcases ignorable with nothing | ⟨rest, comment⟩
      · cases nothing
      · obtain ⟨rfl, more⟩ := List.cons.inj comment
        cases text with
        | nil => cases more
        | cons d text =>
          obtain ⟨rfl, _⟩ := List.cons.inj more
          exact Or.inr ⟨text, rfl⟩

theorem withReturns_plain (plain : '\n' ∉ line) : withReturns marks (line ++ rest) = line ++ withReturns marks rest := by
  induction line generalizing marks with
  | nil => rfl
  | cons c line ih =>
    rw [List.mem_cons, not_or] at plain
    rw [List.cons_append, withReturns.eq_4, ih plain.2, List.cons_append]
    · rintro marks rfl rfl
      exact plain.1 rfl
    · rintro marks rfl rfl
      exact plain.1 rfl

theorem withReturns_feed (marks : List Bool) (rest : List Char) :
    withReturns marks ('\n' :: rest) = '\n' :: withReturns marks.tail rest ∨
      withReturns marks ('\n' :: rest) = '\r' :: '\n' :: withReturns marks.tail rest := by
  match marks with
  | [] => exact Or.inl rfl
  | false :: marks => exact Or.inl rfl
  | true :: marks => exact Or.inr rfl

theorem splitLines_clips (plain : '\n' ∉ line) (rest : List Char) :
    ∃ clipped, Clips line clipped ∧ splitLines (line ++ '\n' :: rest) = clipped :: splitLines rest := by
  by_cases ended : line.getLast? = some '\r'
  · obtain ⟨clipped, rfl⟩ := List.getLast?_eq_some_iff.mp ended
    refine ⟨clipped, Or.inr rfl, ?_⟩
    rw [List.append_assoc, List.singleton_append]
    exact splitLines_carriage fun member => plain (List.mem_append_left _ member)
  · exact ⟨line, Or.inl rfl, splitLines_feed plain ended⟩

theorem splitLines_withReturns (some_line : lines ≠ []) (plain : ∀ line ∈ lines, '\n' ∉ line) (marks : List Bool) :
    List.Forall₂ Clips lines (splitLines (withReturns marks (joinLines lines))) := by
  induction lines generalizing marks with
  | nil => exact absurd rfl some_line
  | cons line rest ih =>
    rw [List.forall_mem_cons] at plain
    cases rest with
    | nil =>
      have single : withReturns marks (joinLines [line]) = line := by
        have whole := @withReturns_plain marks line [] plain.1
        simpa [joinLines, withReturns] using whole
      rw [single, splitLines_last plain.1]
      exact .cons (Or.inl rfl) .nil
    | cons next rest =>
      have later := ih (by simp) plain.2 marks.tail
      rw [joinLines_cons (by simp), withReturns_plain plain.1]
      rcases withReturns_feed marks (joinLines (next :: rest)) with feed | carriage
      · obtain ⟨clipped, clips, split⟩ := splitLines_clips plain.1 (withReturns marks.tail (joinLines (next :: rest)))
        rw [feed, split]
        exact .cons clips later
      · rw [carriage, splitLines_carriage plain.1]
        exact .cons (Or.inl rfl) later

theorem clips_bare (clips : List.Forall₂ Clips lines written) (bare : ∀ line ∈ lines, '\r' ∉ line) :
    written = lines := by
  induction clips with
  | nil => rfl
  | cons first _ ih =>
    rw [List.forall_mem_cons] at bare
    rw [first.bare bare.1, ih bare.2]

theorem clips_append (clips : List.Forall₂ Clips (lines ++ more) written) : ∃ front back, written = front ++ back ∧
    List.Forall₂ Clips lines front ∧ List.Forall₂ Clips more back := by
  have front := List.forall₂_take lines.length clips
  have back := List.forall₂_drop lines.length clips
  rw [List.take_left] at front
  rw [List.drop_left] at back
  exact ⟨_, _, (List.take_append_drop _ _).symm, front, back⟩

end Lines
end WiredViews
