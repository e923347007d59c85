namespace WiredViews

def distinct {α : Type} [DecidableEq α] : List α → List α
  | [] => []
  | a :: rest => a :: (distinct rest).filter (· ≠ a)

def firstSeen {α : Type} [DecidableEq α] (seen : List α) : List α → Option α
  | [] => none
  | a :: rest => if a ∈ seen then some a else firstSeen (a :: seen) rest

def firstRepeated {α : Type} [DecidableEq α] (items : List α) : Option α :=
  firstSeen [] items

theorem mem_distinct {α : Type} [DecidableEq α] {a : α} {items : List α} :
    a ∈ distinct items ↔ a ∈ items := by
  induction items with
  | nil => simp [distinct]
  | cons b rest ih => by_cases same : a = b <;> simp [distinct, ih, same]

theorem nodup_distinct {α : Type} [DecidableEq α] (items : List α) : (distinct items).Nodup := by
  induction items with
  | nil => simp [distinct]
  | cons b rest ih =>
    simp only [distinct, List.nodup_cons, List.mem_filter, ne_eq, decide_not, Bool.not_eq_true',
      decide_eq_false_iff_not, not_true_eq_false, and_false, not_false_eq_true, true_and]
    exact ih.sublist List.filter_sublist

end WiredViews
