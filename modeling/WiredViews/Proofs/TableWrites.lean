import Mathlib.Data.List.Induction
import Mathlib.Tactic.Tauto
import WiredViews.Distinct
import WiredViews.Table

namespace WiredViews
namespace Table
variable {κ α β ι : Type} [DecidableEq κ]

theorem contains_iff {table : Table κ α} {key : κ} :
    table.contains key = true ↔ ∃ value, table.get? key = some value :=
  Option.isSome_iff_exists

theorem mem_keys {table : Table κ α} {key : κ} :
    key ∈ table.keys ↔ ∃ value, table.get? key = some value := by
  unfold keys
  rw [List.mem_map]
  constructor
  · intro given
    obtain ⟨row, member, rfl⟩ := given
    exact ⟨row.2, get?_eq_some.mpr member⟩
  · intro given
    obtain ⟨value, held⟩ := given
    exact ⟨(key, value), get?_eq_some.mp held, rfl⟩

theorem get?_eq_none {table : Table κ α} {key : κ} : table.get? key = none ↔ key ∉ table.keys := by
  rw [mem_keys, Option.eq_none_iff_forall_ne_some]
  simp only [not_exists]

theorem contains_eq_false {table : Table κ α} {key : κ} : table.contains key = false ↔ key ∉ table.keys := by
  rw [← get?_eq_none]
  exact Option.isSome_eq_false_iff.trans Option.isNone_iff_eq_none

theorem getD_of_get? {table : Table κ α} {key : κ} {value default : α}
    (held : table.get? key = some value) : table.getD key default = value := by
  simp [getD, held]

omit [DecidableEq κ] in
theorem keys_nodup (table : Table κ α) : table.keys.Nodup :=
  table.keys_distinct

@[simp] theorem get?_empty (key : κ) : (∅ : Table κ α).get? key = none :=
  rfl

theorem get?_filterMapRows (keep : κ → α → Option β) (table : Table κ α) (key : κ) :
    (table.filterMapRows keep).get? key = (table.get? key).bind (keep key) := by
  ext value
  rw [get?_eq_some, Option.bind_eq_some_iff]
  simp only [filterMapRows, List.mem_filterMap, Option.map_eq_some_iff, Prod.mk.injEq]
  constructor
  · intro given
    obtain ⟨row, member, result, kept, rfl, rfl⟩ := given
    exact ⟨row.2, get?_eq_some.mpr member, kept⟩
  · intro given
    obtain ⟨held, found, kept⟩ := given
    exact ⟨(key, held), get?_eq_some.mp found, value, kept, rfl, rfl⟩

theorem insertAll_cons (table : Table κ α) (row : κ × α) (rest : List (κ × α)) :
    table.insertAll (row :: rest) = (table.insert row.1 row.2).insertAll rest :=
  rfl

theorem insertAll_append (table : Table κ α) (first second : List (κ × α)) :
    table.insertAll (first ++ second) = (table.insertAll first).insertAll second :=
  List.foldl_append

theorem get?_insertAll_of_absent {table : Table κ α} {rows : List (κ × α)} {key : κ}
    (absent : key ∉ rows.map Prod.fst) : (table.insertAll rows).get? key = table.get? key := by
  induction rows generalizing table with
  | nil => rfl
  | cons row rest ih =>
    simp only [List.map_cons, List.mem_cons, not_or] at absent
    have later : ((table.insert row.1 row.2).insertAll rest).get? key =
        (table.insert row.1 row.2).get? key := ih absent.2
    rw [insertAll_cons, later, get?_insert, if_neg (Ne.symm absent.1)]

theorem get?_insertAll_of_agree {table : Table κ α} {rows : List (κ × α)} {key : κ} {value : α}
    (written : (key, value) ∈ rows) (agree : ∀ row ∈ rows, row.1 = key → row.2 = value) :
    (table.insertAll rows).get? key = some value := by
  induction rows generalizing table with
  | nil => simp at written
  | cons row rest ih =>
    rw [insertAll_cons]
    by_cases later : key ∈ rest.map Prod.fst
    · obtain ⟨other, member, same⟩ := List.mem_map.mp later
      have equal := agree other (List.mem_cons_of_mem _ member) same
      refine ih ?_ fun row member => agree row (List.mem_cons_of_mem _ member)
      rw [← same, ← equal]
      exact member
    · have first : row = (key, value) := by
        rcases List.mem_cons.mp written with equal | member
        · exact equal.symm
        · exact absurd (List.mem_map_of_mem (f := Prod.fst) member) later
      rw [get?_insertAll_of_absent later, get?_insert, first, if_pos rfl]

theorem get?_insertAll_perm {table : Table κ α} {rows others : List (κ × α)} (shuffled : rows.Perm others)
    (agree : ∀ row ∈ rows, ∀ other ∈ rows, row.1 = other.1 → row.2 = other.2) (key : κ) :
    (table.insertAll rows).get? key = (table.insertAll others).get? key := by
  by_cases listed : key ∈ rows.map Prod.fst
  · obtain ⟨row, member, rfl⟩ := List.mem_map.mp listed
    have held : (table.insertAll rows).get? row.1 = some row.2 :=
      get?_insertAll_of_agree member fun other found same => agree other found row member same
    rw [held]
    exact (get?_insertAll_of_agree (shuffled.mem_iff.mp member) fun other found same =>
      agree other (shuffled.mem_iff.mpr found) row member same).symm
  · have unlisted : key ∉ others.map Prod.fst := fun found =>
      listed ((shuffled.map Prod.fst).mem_iff.mpr found)
    rw [get?_insertAll_of_absent listed, get?_insertAll_of_absent unlisted]

theorem get?_insertAll_rows (table other : Table κ α) (key : κ) :
    (table.insertAll other.rows).get? key = (other.get? key).or (table.get? key) := by
  cases found : other.get? key with
  | none =>
    rw [Option.none_or]
    exact get?_insertAll_of_absent (get?_eq_none.mp found)
  | some value =>
    rw [Option.some_or]
    refine get?_insertAll_of_agree (get?_eq_some.mp found) fun row member same => ?_
    have held : other.get? row.1 = some row.2 := get?_eq_some.mpr member
    rw [same, found] at held
    exact (Option.some.inj held).symm

theorem get?_ofList (rows : List (κ × α)) (key : κ) :
    (ofList rows).get? key = ((rows.filter fun row => row.1 = key).getLast?).map Prod.snd := by
  induction rows using List.reverseRecOn with
  | nil => rfl
  | append_singleton rows last ih =>
    have split : ofList (rows ++ [last]) = (ofList rows).insert last.1 last.2 := insertAll_append _ _ _
    rw [split, get?_insert, ih, List.filter_append]
    by_cases same : last.1 = key <;> simp [same]

theorem mem_keys_insert {table : Table κ α} {key other : κ} {value : α} :
    other ∈ (table.insert key value).keys ↔ other = key ∨ other ∈ table.keys :=
  mem_keys_insertRow

theorem mem_rows_insert {table : Table κ α} {key : κ} {value : α} {row : κ × α}
    (listed : row ∈ (table.insert key value).rows) : row = (key, value) ∨ row ∈ table.rows := by
  have held := get?_eq_some.mpr (show (row.1, row.2) ∈ (table.insert key value).rows from listed)
  rw [get?_insert] at held
  split at held
  · rename_i same
    exact Or.inl (by rw [same, Option.some.inj held])
  · exact Or.inr (get?_eq_some.mp held)

theorem mem_keys_insertAll {table : Table κ α} {rows : List (κ × α)} {key : κ} :
    key ∈ (table.insertAll rows).keys ↔ key ∈ rows.map Prod.fst ∨ key ∈ table.keys := by
  induction rows generalizing table with
  | nil => simp [insertAll]
  | cons row rest ih =>
    rw [insertAll_cons, ih, mem_keys_insert, List.map_cons, List.mem_cons]
    tauto

theorem getD_push (table : Table κ (List α)) (key other : κ) (item : α) :
    (table.push key item).getD other [] =
      if key = other then table.getD other [] ++ [item] else table.getD other [] := by
  unfold push alter getD
  rw [get?_insert]
  split
  · rename_i same
    simp [same]
  · rfl

theorem insertRow_of_absent {key : κ} {value : α} {rows : List (κ × α)}
    (absent : key ∉ rows.map Prod.fst) : insertRow key value rows = rows ++ [(key, value)] := by
  induction rows with
  | nil => rfl
  | cons row rest ih =>
    simp only [List.map_cons, List.mem_cons, not_or] at absent
    rw [insertRow, if_neg (Ne.symm absent.1), ih absent.2, List.cons_append]

theorem rows_insertAll {table : Table κ α} {rows : List (κ × α)} (distinct : (rows.map Prod.fst).Nodup)
    (fresh : ∀ row ∈ rows, row.1 ∉ table.keys) : (table.insertAll rows).rows = table.rows ++ rows := by
  induction rows generalizing table with
  | nil => simp [insertAll]
  | cons row rest ih =>
    rw [List.map_cons, List.nodup_cons] at distinct
    rw [List.forall_mem_cons] at fresh
    have grown : (table.insert row.1 row.2).rows = table.rows ++ [row] := insertRow_of_absent fresh.1
    rw [insertAll_cons, ih distinct.2, grown, List.append_assoc, List.singleton_append]
    intro other later
    rw [mem_keys_insert, not_or]
    refine ⟨?_, fresh.2 other later⟩
    rintro same
    exact distinct.1 (same ▸ List.mem_map_of_mem later)

omit [DecidableEq κ] in
theorem eq_of_rows {table other : Table κ α} (same : table.rows = other.rows) : table = other := by
  cases table
  cases other
  cases same
  rfl

omit [DecidableEq κ] in
theorem isEmpty_iff {table : Table κ α} : table.isEmpty = true ↔ table = ∅ := by
  unfold isEmpty
  rw [List.isEmpty_iff]
  constructor
  · intro nothing
    apply eq_of_rows
    exact nothing
  · rintro rfl
    rfl

theorem insertAll_own_rows (table : Table κ α) : (∅ : Table κ α).insertAll table.rows = table :=
  eq_of_rows (rows_insertAll table.keys_distinct fun _ _ => by simp [mem_keys])

theorem map_fst_insertRow {key : κ} {value : α} {rows : List (κ × α)}
    (member : key ∈ rows.map Prod.fst) : (insertRow key value rows).map Prod.fst = rows.map Prod.fst := by
  induction rows with
  | nil => simp at member
  | cons row rest ih =>
    rw [List.map_cons, List.mem_cons] at member
    rw [insertRow]
    split
    · rename_i same
      simp [same]
    · rename_i differ
      rw [List.map_cons, List.map_cons, ih (member.resolve_left (Ne.symm differ))]

theorem keys_insert_of_mem {table : Table κ α} {key : κ} {value : α} (member : key ∈ table.keys) :
    (table.insert key value).keys = table.keys :=
  map_fst_insertRow member

theorem keys_insert_of_absent {table : Table κ α} {key : κ} {value : α} (absent : key ∉ table.keys) :
    (table.insert key value).keys = table.keys ++ [key] := by
  change (insertRow key value table.rows).map Prod.fst = table.rows.map Prod.fst ++ [key]
  rw [insertRow_of_absent absent, List.map_append, List.map_singleton]

theorem insert_held {table : Table κ α} {key : κ} {value : α} (held : table.get? key = some value) :
    table.insert key value = table := by
  apply eq_of_rows
  change insertRow key value table.rows = table.rows
  unfold get? at held
  revert held
  induction table.rows with
  | nil => simp [lookup]
  | cons row rest ih =>
    unfold lookup insertRow
    split
    · rename_i same
      intro held
      rw [← same, ← Option.some.inj held]
    · intro held
      rw [ih held]

theorem rows_eq_map {table : Table κ α} {value : κ → α}
    (held : ∀ key ∈ table.keys, table.get? key = some (value key)) :
    table.rows = table.keys.map fun key => (key, value key) := by
  unfold keys at *
  rw [List.map_map]
  symm
  rw [List.map_congr_left (g := id), List.map_id]
  intro row member
  have found := held row.1 (List.mem_map_of_mem member)
  have same := get?_eq_some.mpr (show (row.1, row.2) ∈ table.rows from member)
  rw [same] at found
  simp only [Function.comp_apply, id_eq, ← Option.some.inj found]

end Table

theorem distinct_append_singleton {κ : Type} [DecidableEq κ] (items : List κ) (item : κ) :
    distinct (items ++ [item]) = if item ∈ items then distinct items else distinct items ++ [item] := by
  induction items with
  | nil => simp [distinct]
  | cons first rest ih =>
    simp only [List.cons_append, distinct, ih, List.mem_cons]
    by_cases same : item = first
    · by_cases later : item ∈ rest <;> simp [same] <;> simp_all
    · by_cases later : item ∈ rest <;> simp [same, later]

namespace Table
variable {κ α ι : Type} [DecidableEq κ]

theorem keys_insert_distinct {table : Table κ α} {key : κ} {value : α} {listed : List κ}
    (same : table.keys = distinct listed) : (table.insert key value).keys = distinct (listed ++ [key]) := by
  have member : key ∈ table.keys ↔ key ∈ listed := by rw [same, mem_distinct]
  rw [distinct_append_singleton, ← same]
  by_cases seen : key ∈ listed
  · rw [if_pos seen, keys_insert_of_mem (member.mpr seen)]
  · rw [if_neg seen, keys_insert_of_absent fun present => seen (member.mp present)]

-- Items pushed one by one under their keys: keys in the order of their first items,
-- and under each key its items in the order in which they came.
theorem getD_group (key : ι → κ) (item : ι → α) (items : List ι) (other : κ) :
    (items.foldl (fun table i => table.push (key i) (item i)) (∅ : Table κ (List α))).getD other [] =
      (items.filter fun i => key i = other).map item := by
  induction items using List.reverseRecOn with
  | nil => rfl
  | append_singleton items last ih =>
    rw [List.foldl_append, List.foldl_cons, List.foldl_nil, getD_push, ih, List.filter_append,
      List.map_append]
    by_cases same : key last = other <;> simp [same]

theorem keys_group (key : ι → κ) (item : ι → α) (items : List ι) :
    (items.foldl (fun table i => table.push (key i) (item i)) (∅ : Table κ (List α))).keys =
      distinct (items.map key) := by
  induction items using List.reverseRecOn with
  | nil => rfl
  | append_singleton items last ih =>
    rw [List.foldl_append, List.foldl_cons, List.foldl_nil, List.map_append, List.map_cons, List.map_nil]
    exact keys_insert_distinct ih

theorem rows_group (key : ι → κ) (item : ι → α) (items : List ι) :
    (items.foldl (fun table i => table.push (key i) (item i)) (∅ : Table κ (List α))).rows =
      (distinct (items.map key)).map fun k => (k, (items.filter fun i => key i = k).map item) := by
  rw [← keys_group key item items]
  refine rows_eq_map fun other member => ?_
  obtain ⟨held, found⟩ := mem_keys.mp member
  rw [found, ← getD_group key item items other, getD_of_get? found]

end Table
end WiredViews
