namespace WiredViews

-- A table lists its rows in the order in which their keys first came. Writing to
-- a key that is there replaces the row where it stands.
structure Table (κ α : Type) where
  rows : List (κ × α)
  keys_distinct : (rows.map Prod.fst).Nodup
deriving DecidableEq

namespace Table
variable {κ α β : Type}

instance : EmptyCollection (Table κ α) := ⟨⟨[], by simp⟩⟩
instance : Inhabited (Table κ α) := ⟨∅⟩

def keys (table : Table κ α) : List κ :=
  table.rows.map Prod.fst

def values (table : Table κ α) : List α :=
  table.rows.map Prod.snd

def size (table : Table κ α) : Nat :=
  table.rows.length

def isEmpty (table : Table κ α) : Bool :=
  table.rows.isEmpty

def mapRows (change : κ → α → β) (table : Table κ α) : Table κ β where
  rows := table.rows.map fun row => (row.1, change row.1 row.2)
  keys_distinct := by
    have same : (table.rows.map fun row => (row.1, change row.1 row.2)).map Prod.fst =
        table.rows.map Prod.fst := by simp [Function.comp_def]
    rw [same]
    exact table.keys_distinct

def filterMapRows (keep : κ → α → Option β) (table : Table κ α) : Table κ β where
  rows := table.rows.filterMap fun row => (keep row.1 row.2).map (row.1, ·)
  keys_distinct := by
    have sub : ((table.rows.filterMap fun row => (keep row.1 row.2).map (row.1, ·)).map Prod.fst).Sublist
        (table.rows.map Prod.fst) := by
      induction table.rows with
      | nil => simp
      | cons row rest ih =>
        cases kept : keep row.1 row.2 with
        | none => simpa [kept] using ih.cons row.1
        | some value => simpa [kept] using ih.cons_cons row.1
    exact table.keys_distinct.sublist sub

theorem keys_mapRows (change : κ → α → β) (table : Table κ α) :
    (table.mapRows change).keys = table.keys := by
  simp [keys, mapRows, Function.comp_def]

variable [DecidableEq κ]

def lookup (key : κ) : List (κ × α) → Option α
  | [] => none
  | row :: rest => if row.1 = key then some row.2 else lookup key rest

def get? (table : Table κ α) (key : κ) : Option α :=
  lookup key table.rows

def getD (table : Table κ α) (key : κ) (default : α) : α :=
  (table.get? key).getD default

def contains (table : Table κ α) (key : κ) : Bool :=
  (table.get? key).isSome

def insertRow (key : κ) (value : α) : List (κ × α) → List (κ × α)
  | [] => [(key, value)]
  | row :: rest => if row.1 = key then (key, value) :: rest else row :: insertRow key value rest

theorem mem_keys_insertRow {key other : κ} {value : α} {rows : List (κ × α)} :
    other ∈ (insertRow key value rows).map Prod.fst ↔ other = key ∨ other ∈ rows.map Prod.fst := by
  induction rows with
  | nil => simp [insertRow]
  | cons row rest ih =>
    unfold insertRow
    split
    · rename_i same
      simp [same]
    · simp only [List.map_cons, List.mem_cons, ih]
      grind

def insert (table : Table κ α) (key : κ) (value : α) : Table κ α where
  rows := insertRow key value table.rows
  keys_distinct := by
    have before := table.keys_distinct
    revert before
    induction table.rows with
    | nil => simp [insertRow]
    | cons row rest ih =>
      intro before
      unfold insertRow
      split
      · rename_i same
        simpa [← same] using before
      · rename_i differ
        simp only [List.map_cons, List.nodup_cons, mem_keys_insertRow] at before ⊢
        exact ⟨fun either => either.elim differ before.1, ih before.2⟩

def alter (table : Table κ α) (key : κ) (change : Option α → α) : Table κ α :=
  table.insert key (change (table.get? key))

def insertAll (table : Table κ α) (rows : List (κ × α)) : Table κ α :=
  rows.foldl (fun sofar row => sofar.insert row.1 row.2) table

-- Of several rows with one key the first gives the place and the last the value.
def ofList (rows : List (κ × α)) : Table κ α :=
  insertAll ∅ rows

def push (table : Table κ (List α)) (key : κ) (item : α) : Table κ (List α) :=
  table.alter key fun held => held.getD [] ++ [item]

theorem lookup_mapRows (change : κ → α → β) (key : κ) (rows : List (κ × α)) :
    lookup key (rows.map fun row => (row.1, change row.1 row.2)) = (lookup key rows).map (change key) := by
  induction rows with
  | nil => rfl
  | cons row rest ih =>
    simp only [List.map_cons, lookup]
    split
    · rename_i same
      simp [← same]
    · exact ih

theorem get?_mapRows (change : κ → α → β) (table : Table κ α) (key : κ) :
    (table.mapRows change).get? key = (table.get? key).map (change key) :=
  lookup_mapRows change key table.rows

theorem lookup_insertRow {key other : κ} {value : α} {rows : List (κ × α)} :
    lookup other (insertRow key value rows) = if key = other then some value else lookup other rows := by
  induction rows with
  | nil => simp [insertRow, lookup]
  | cons row rest ih =>
    unfold insertRow
    split <;> simp only [lookup] <;> grind

theorem get?_insert (table : Table κ α) (key other : κ) (value : α) :
    (table.insert key value).get? other = if key = other then some value else table.get? other :=
  lookup_insertRow

theorem get?_eq_some {table : Table κ α} {key : κ} {value : α} :
    table.get? key = some value ↔ (key, value) ∈ table.rows := by
  have distinct := table.keys_distinct
  unfold get?
  revert distinct
  induction table.rows with
  | nil => simp [lookup]
  | cons row rest ih =>
    intro distinct
    simp only [List.map_cons, List.nodup_cons] at distinct
    have tail : lookup key rest = some value ↔ (key, value) ∈ rest := ih distinct.2
    unfold lookup
    split
    · rename_i same
      have absent : (key, value) ∉ rest := fun member =>
        distinct.1 (same ▸ List.mem_map_of_mem (f := Prod.fst) member)
      simp only [Option.some.injEq, List.mem_cons, absent, or_false]
      constructor
      · rintro rfl; rw [← same]
      · intro equal; rw [← equal]
    · rename_i differ
      rw [tail]
      simp only [List.mem_cons]
      constructor
      · exact Or.inr
      · rintro (equal | member)
        · exact absurd (by rw [← equal]) differ
        · exact member

end Table
end WiredViews
