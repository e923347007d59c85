import WiredViews.Segments

namespace WiredViews
section Runs
variable {α β : Type} {pattern : Pattern α}

theorem segments_take {c : Char} {rest left : List Char} {item : α}
    (found : pattern (c :: rest) = some (item, left)) (suffix : left <:+ rest) :
    segments pattern (c :: rest) = .found item :: segments pattern left := by
  rw [segments_cons, found]
  dsimp only
  rw [← List.suffix_iff_eq_drop.mp suffix]

theorem segments_token {token left : List Char} {item : α} (some_token : token ≠ [])
    (found : pattern (token ++ left) = some (item, left)) :
    segments pattern (token ++ left) = .found item :: segments pattern left := by
  obtain ⟨c, rest, rfl⟩ := List.exists_cons_of_ne_nil some_token
  exact segments_take found (List.suffix_append rest left)

-- Nothing is found from anywhere in the stretch, also not beyond its end.
theorem segments_stretch {stretch rest : List Char}
    (missed : ∀ front back, stretch = front ++ back → back ≠ [] → pattern (back ++ rest) = none) :
    segments pattern (stretch ++ rest) = stretch.foldr Segment.consChar (segments pattern rest) := by
  induction stretch with
  | nil => rfl
  | cons c stretch ih =>
    have here : pattern (c :: (stretch ++ rest)) = none := missed [] (c :: stretch) rfl (by simp)
    rw [List.cons_append, segments_cons, here, List.foldr_cons]
    dsimp only
    rw [ih fun front back split => missed (c :: front) back (by rw [split]; rfl)]

theorem flatMap_split {members : List α} {list : α → List β} {front back : List β} {item : β}
    (split : members.flatMap list = front ++ item :: back) :
    ∃ before member after first second, members = before ++ member :: after ∧
      list member = first ++ item :: second ∧ front = before.flatMap list ++ first ∧
      back = second ++ after.flatMap list := by
  induction members generalizing front with
  | nil => simp at split
  | cons member members ih =>
    have later : ∀ rest, members.flatMap list = rest ++ item :: back → front = list member ++ rest →
        ∃ before found after first second, member :: members = before ++ found :: after ∧
          list found = first ++ item :: second ∧ front = before.flatMap list ++ first ∧
          back = second ++ after.flatMap list := by
      intro rest behind whole
      obtain ⟨before, found, after, first, second, same, listed, ends, begins⟩ := ih behind
      refine ⟨member :: before, found, after, first, second, by rw [same, List.cons_append], listed, ?_, begins⟩
      rw [whole, ends, List.flatMap_cons, List.append_assoc]
    rw [List.flatMap_cons, List.append_eq_append_iff] at split
    rcases split with ⟨rest, whole, behind⟩ | ⟨second, listed, begins⟩
    · exact later rest behind whole
    · cases second with
      | nil =>
        rw [List.append_nil] at listed
        exact later [] begins.symm (by rw [listed, List.append_nil])
      | cons first second =>
        obtain ⟨rfl, behind⟩ := List.cons.inj begins
        exact ⟨[], member, members, front, second, rfl, listed, rfl, behind⟩

section Reading
variable {read : Segment α → List β}
  (splits : ∀ c stretch, read (.plain (c :: stretch)) = read (.plain [c]) ++ read (.plain stretch))
include splits

theorem flatMap_consChar (c : Char) (pieces : List (Segment α)) :
    (Segment.consChar c pieces).flatMap read = read (.plain [c]) ++ pieces.flatMap read := by
  cases pieces with
  | nil => simp [Segment.consChar]
  | cons piece pieces =>
    cases piece with
    | plain stretch =>
      rw [Segment.consChar, List.flatMap_cons, List.flatMap_cons, splits, List.append_assoc]
    | found item => rfl

theorem flatMap_stretch (empty : read (.plain []) = []) (stretch : List Char) (pieces : List (Segment α)) :
    (stretch.foldr Segment.consChar pieces).flatMap read = read (.plain stretch) ++ pieces.flatMap read := by
  induction stretch with
  | nil => rw [empty]; rfl
  | cons c stretch ih =>
    rw [List.foldr_cons, flatMap_consChar splits, ih, splits c stretch, List.append_assoc]

end Reading

theorem items_consChar (c : Char) (pieces : List (Segment α)) :
    (Segment.consChar c pieces).filterMap Segment.item? = pieces.filterMap Segment.item? := by
  cases pieces with
  | nil => rfl
  | cons piece pieces => cases piece <;> rfl

theorem items_stretch (stretch : List Char) (pieces : List (Segment α)) :
    (stretch.foldr Segment.consChar pieces).filterMap Segment.item? = pieces.filterMap Segment.item? := by
  induction stretch with
  | nil => rfl
  | cons c stretch ih => rw [List.foldr_cons, items_consChar, ih]

end Runs
end WiredViews
