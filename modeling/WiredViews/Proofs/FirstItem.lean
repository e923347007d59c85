import Mathlib.Logic.Basic
import WiredViews.Distinct

namespace WiredViews

def IsFirst {α : Type} (bad : α → Prop) (items : List α) (item : α) : Prop :=
  ∃ before after, items = before ++ item :: after ∧ bad item ∧ ∀ other ∈ before, ¬ bad other

theorem find?_eq_first {α : Type} {bad : α → Prop} {test : α → Bool}
    (tests : ∀ item, test item = true ↔ bad item) {items : List α} {item : α} :
    items.find? test = some item ↔ IsFirst bad items item := by
  rw [List.find?_eq_some_iff_append, tests]
  have passes : ∀ other, (!test other) = true ↔ ¬ bad other := by
    intro other
    rw [← tests]
    simp
  simp only [passes, IsFirst]
  constructor
  · intro given
    obtain ⟨holds, before, after, equal, earlier⟩ := given
    exact ⟨before, after, equal, holds, earlier⟩
  · intro given
    obtain ⟨before, after, equal, holds, earlier⟩ := given
    exact ⟨holds, before, after, equal, earlier⟩

section First
open Classical
variable {α β : Type} {bad : β → Prop}

theorem isFirst_iff_find? {items : List β} {item : β} :
    IsFirst bad items item ↔ items.find? (fun item => decide (bad item)) = some item :=
  (find?_eq_first fun _ => decide_eq_true_iff).symm

theorem exists_isFirst {items : List β} : (∃ item, IsFirst bad items item) ↔ ∃ item ∈ items, bad item := by
  simp only [isFirst_iff_find?, ← Option.isSome_iff_exists, List.find?_isSome, decide_eq_true_eq]

theorem IsFirst.member {items : List β} {item : β} (first : IsFirst bad items item) : item ∈ items := by
  obtain ⟨_, _, rfl, _, _⟩ := first
  simp

theorem IsFirst.holds {items : List β} {item : β} (first : IsFirst bad items item) : bad item := by
  obtain ⟨_, _, _, holds, _⟩ := first
  exact holds

theorem isFirst_congr {worse : β → Prop} {items : List β} {item : β}
    (same : ∀ item ∈ items, bad item ↔ worse item) : IsFirst bad items item ↔ IsFirst worse items item := by
  refine exists_congr fun before => exists_congr fun after => and_congr_right fun split => ?_
  refine and_congr (same item (by simp [split])) (forall₂_congr fun other earlier => not_congr ?_)
  exact same other (by simp [split, earlier])

theorem isFirst_filter {keep : β → Bool} {items : List β} {item : β} :
    IsFirst bad (items.filter keep) item ↔ IsFirst (fun item => keep item = true ∧ bad item) items item := by
  rw [isFirst_iff_find?, List.find?_filter]
  refine find?_eq_first fun other => ?_
  simp

theorem isFirst_map {read : α → β} {items : List α} {result : β} :
    IsFirst bad (items.map read) result ↔ ∃ item, IsFirst (fun item => bad (read item)) items item ∧
      read item = result := by
  rw [isFirst_iff_find?, List.find?_map, Option.map_eq_some_iff]
  refine exists_congr fun item => and_congr_left fun _ => find?_eq_first fun other => ?_
  simp

theorem isFirst_filterMap {read : α → Option β} {items : List α} {result : β} :
    IsFirst bad (items.filterMap read) result ↔
      ∃ item, IsFirst (fun item => ∃ found, read item = some found ∧ bad found) items item ∧
        read item = some result := by
  rw [isFirst_iff_find?, List.find?_filterMap, Option.bind_eq_some_iff]
  refine exists_congr fun item => and_congr_left fun _ => find?_eq_first fun other => ?_
  cases read other <;> simp

theorem isFirst_distinct [DecidableEq β] {items : List β} {item : β} :
    IsFirst bad (distinct items) item ↔ IsFirst bad items item := by
  rw [isFirst_iff_find?, isFirst_iff_find?]
  induction items with
  | nil => rfl
  | cons first rest ih =>
    rw [distinct, List.find?_cons, List.find?_cons, List.find?_filter]
    by_cases now : bad first
    · simp [now]
    · have skipped : (fun other => decide (decide (other ≠ first) = true ∧ decide (bad other) = true)) =
          fun other => decide (bad other) := by
        funext other
        by_cases same : other = first <;> simp [same, now]
      simp only [now, decide_false, skipped]
      exact ih

theorem findSome?_eq_first {read : α → Option β} {items : List α} {result : β} :
    items.findSome? read = some result ↔
      ∃ item, IsFirst (fun item => ∃ found, read item = some found) items item ∧ read item = some result := by
  rw [List.findSome?_eq_some_iff]
  have passes : ∀ other, read other = none ↔ ¬ ∃ found, read other = some found := by
    intro other
    rw [← Option.isSome_iff_exists]
    simp
  simp only [passes]
  constructor
  · intro given
    obtain ⟨before, item, after, equal, found, earlier⟩ := given
    exact ⟨item, ⟨before, after, equal, ⟨result, found⟩, earlier⟩, found⟩
  · intro given
    obtain ⟨item, ⟨before, after, equal, _, earlier⟩, found⟩ := given
    exact ⟨before, item, after, equal, found, earlier⟩

end First

theorem firstSeen_eq_none {α : Type} [DecidableEq α] {seen items : List α} :
    firstSeen seen items = none ↔ items.Nodup ∧ ∀ item ∈ items, item ∉ seen := by
  induction items generalizing seen with
  | nil => simp [firstSeen]
  | cons item rest ih =>
    unfold firstSeen
    split
    · rename_i again
      simp [again]
    · rename_i fresh
      rw [ih]
      simp only [List.nodup_cons, List.forall_mem_cons]
      constructor
      · intro given
        obtain ⟨distinct, apart⟩ := given
        exact ⟨⟨fun later => apart item later (by simp), distinct⟩, fresh, fun other later seen =>
          apart other later (List.mem_cons_of_mem _ seen)⟩
      · intro given
        obtain ⟨⟨once, distinct⟩, _, apart⟩ := given
        refine ⟨distinct, fun other later passed => ?_⟩
        rcases List.mem_cons.mp passed with rfl | seen
        · exact once later
        · exact apart other later seen

theorem firstRepeated_eq_none {α : Type} [DecidableEq α] {items : List α} :
    firstRepeated items = none ↔ items.Nodup := by
  simp [firstRepeated, firstSeen_eq_none]

end WiredViews
