import WiredViews.Round

namespace WiredViews

def Returned.Lists (result : Returned) (items : List Value) : Prop :=
  result = .data (.list items) ∨ result = .data (.tuple items) ∨ result = .tuple items

-- One object for each entry that is left of the batch, and what the objects are read as.
def Reply.Records (reply : Reply) (left : Batch) (records : List Record) : Prop :=
  ∃ (result : Returned) (rows : List (List (String × Value))), reply = .returned left result ∧
    result.Lists (rows.map .object) ∧ rows.length = left.length ∧ records = rows.map Table.ofList

section Replies
variable {provider : String} {reply : Reply} {left : Batch} {records : List Record}

theorem Reply.Records.length (replied : reply.Records left records) : records.length = left.length := by
  obtain ⟨_, rows, _, _, fits, rfl⟩ := replied
  rw [List.length_map, fits]

theorem readRecords_exact {items : List Value} : readRecords provider items = .ok records ↔
    ∃ rows : List (List (String × Value)), items = rows.map .object ∧ records = rows.map Table.ofList := by
  constructor
  · intro read
    induction items generalizing records with
    | nil =>
      cases read
      exact ⟨[], rfl, rfl⟩
    | cons item rest ih =>
      cases item with
      | object fields =>
        simp only [readRecords] at read
        cases later : readRecords provider rest with
        | error failure => simp [later] at read
        | ok others =>
          obtain ⟨rows, rfl, rfl⟩ := ih later
          simp only [later, Except.ok.injEq] at read
          exact ⟨fields :: rows, rfl, read.symm⟩
      | null | bool | int | decimal | str | list | tuple => simp [readRecords] at read
  · intro given
    obtain ⟨rows, rfl, rfl⟩ := given
    induction rows with
    | nil => rfl
    | cons fields rest ih => simp [readRecords, ih]

theorem items_exact {result : Returned} {items : List Value} : result.items? = .ok items ↔ result.Lists items := by
  unfold Returned.Lists
  cases result with
  | data value => cases value <;> simp [Returned.items?, Value.items?]
  | tuple held => simp [Returned.items?]
  | foreign typeName => simp [Returned.items?]

theorem returned_exact {result : Returned} {size : Nat} : result.records provider size = .ok records ↔
    ∃ rows : List (List (String × Value)), result.Lists (rows.map .object) ∧ rows.length = size ∧
      records = rows.map Table.ofList := by
  have read : result.records provider size = .ok records ↔
      ∃ items, result.items? = .ok items ∧ items.length = size ∧ readRecords provider items = .ok records := by
    unfold Returned.records
    cases result.items? with
    | error typeName => simp
    | ok items => by_cases fits : items.length = size <;> simp [fits]
  simp only [read, items_exact, readRecords_exact]
  constructor
  · intro given
    obtain ⟨_, listed, fits, rows, rfl, same⟩ := given
    exact ⟨rows, listed, by simpa using fits, same⟩
  · intro given
    obtain ⟨rows, listed, fits, same⟩ := given
    exact ⟨_, listed, by simpa using fits, rows, rfl, same⟩

theorem outcome_exact : reply.outcome provider = .resolved records ↔ ∃ left, reply.Records left records := by
  cases reply with
  | raised error => cases error <;> simp [Reply.outcome, Reply.Records]
  | returned held result =>
    have resolved : (Reply.returned held result).outcome provider = .resolved records ↔
        result.records provider held.length = .ok records := by
      cases read : result.records provider held.length <;> simp [Reply.outcome, read]
    rw [resolved, returned_exact]
    constructor
    · intro given
      obtain ⟨rows, listed, fits, same⟩ := given
      exact ⟨held, result, rows, rfl, listed, fits, same⟩
    · intro given
      obtain ⟨_, _, rows, equal, listed, fits, same⟩ := given
      cases equal
      exact ⟨rows, listed, fits, same⟩

end Replies
end WiredViews
