import WiredViews.Proofs.PatternRuns

-- Where in a text a search finds what it finds. Nothing is asked of the pattern, so this much is
-- known of any search.
namespace WiredViews

structure Sighting (α : Type) where
  item : α
  start : Nat
  stop : Nat
deriving DecidableEq

def Sighting.Covers {α : Type} (sighting : Sighting α) (place : Nat) : Prop :=
  sighting.start ≤ place ∧ place < sighting.stop

def sightingsFrom {α : Type} (pattern : Pattern α) : Nat → Nat → List Char → List (Sighting α)
  | _, _, [] => []
  | place, covered + 1, _ :: rest => sightingsFrom pattern (place + 1) covered rest
  | place, 0, c :: rest =>
    match pattern (c :: rest) with
    | some (item, left) =>
      ⟨item, place, place + 1 + (rest.length - left.length)⟩ ::
        sightingsFrom pattern (place + 1) (rest.length - left.length) rest
    | none => sightingsFrom pattern (place + 1) 0 rest

def sightings {α : Type} (pattern : Pattern α) (text : List Char) : List (Sighting α) :=
  sightingsFrom pattern 0 0 text

section Search
variable {α : Type} {pattern : Pattern α} {place covered : Nat} {c : Char} {text rest left token : List Char}
  {item : α} {sighting : Sighting α}

theorem sightings_missed (missed : pattern (c :: rest) = none) :
    sightingsFrom pattern place 0 (c :: rest) = sightingsFrom pattern (place + 1) 0 rest := by
  simp only [sightingsFrom, missed]

theorem sightings_found (found : pattern (c :: rest) = some (item, left)) :
    sightingsFrom pattern place 0 (c :: rest) = ⟨item, place, place + 1 + (rest.length - left.length)⟩ ::
      sightingsFrom pattern (place + 1) (rest.length - left.length) rest := by
  simp only [sightingsFrom, found]

theorem sightings_covered (token rest : List Char) (place : Nat) :
    sightingsFrom pattern place token.length (token ++ rest) = sightingsFrom pattern (place + token.length) 0 rest := by
  induction token generalizing place with
  | nil => rfl
  | cons c token ih =>
    have later := ih (place + 1)
    rw [Nat.add_right_comm, Nat.add_assoc] at later
    exact later

theorem sightings_token (some_token : token ≠ []) (found : pattern (token ++ left) = some (item, left)) :
    sightingsFrom pattern place 0 (token ++ left) =
      ⟨item, place, place + token.length⟩ :: sightingsFrom pattern (place + token.length) 0 left := by
  obtain ⟨c, token, rfl⟩ := List.exists_cons_of_ne_nil some_token
  have size : (token ++ left).length - left.length = token.length := by simp
  have behind : place + 1 + token.length = place + (c :: token).length := by
    rw [List.length_cons]
    omega
  rw [List.cons_append] at found ⊢
  rw [sightings_found found, size, sightings_covered, behind]

theorem sightings_items (place covered : Nat) (text : List Char) :
    (sightingsFrom pattern place covered text).map Sighting.item =
      (segmentsFrom pattern covered text).filterMap Segment.item? := by
  induction text generalizing place covered with
  | nil => cases covered <;> rfl
  | cons c rest ih =>
    cases covered with
    | succ covered => exact ih (place + 1) covered
    | zero =>
      rw [segmentsFrom]
      cases found : pattern (c :: rest) with
      | none =>
        rw [sightings_missed found, ih]
        exact (items_consChar c _).symm
      | some got =>
        obtain ⟨item, left⟩ := got
        rw [sightings_found found, List.map_cons, ih]
        rfl

theorem finds_sightings (pattern : Pattern α) (text : List Char) :
    finds pattern text = (sightings pattern text).map Sighting.item :=
  (sightings_items 0 0 text).symm

theorem sightings_within (seen : sighting ∈ sightingsFrom pattern place covered text) :
    place + covered ≤ sighting.start ∧ sighting.start < sighting.stop ∧ sighting.stop ≤ place + text.length := by
  induction text generalizing place covered with
  | nil => cases covered <;> cases seen
  | cons c rest ih =>
    rw [List.length_cons]
    cases covered with
    | succ covered =>
      have later := ih seen
      omega
    | zero =>
      cases found : pattern (c :: rest) with
      | none =>
        rw [sightings_missed found] at seen
        have later := ih seen
        omega
      | some got =>
        obtain ⟨item, left⟩ := got
        rw [sightings_found found, List.mem_cons] at seen
        rcases seen with rfl | seen
        · dsimp only
          omega
        · have later := ih seen
          omega

theorem sightings_apart (pattern : Pattern α) (place covered : Nat) (text : List Char) :
    (sightingsFrom pattern place covered text).Pairwise fun first second => first.stop ≤ second.start := by
  induction text generalizing place covered with
  | nil => cases covered <;> exact .nil
  | cons c rest ih =>
    cases covered with
    | succ covered => exact ih (place + 1) covered
    | zero =>
      cases found : pattern (c :: rest) with
      | none =>
        rw [sightings_missed found]
        exact ih (place + 1) 0
      | some got =>
        obtain ⟨item, left⟩ := got
        rw [sightings_found found]
        refine .cons ?_ (ih _ _)
        intro second seen
        exact (sightings_within seen).1

end Search
end WiredViews
