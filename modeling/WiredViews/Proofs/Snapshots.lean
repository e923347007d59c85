import WiredViews.Proofs.PlannedLevels
import WiredViews.Proofs.RunHistory

namespace WiredViews

def Progress.Resolved (progress : Progress) (service : String) : Prop :=
  ∃ attempt ∈ progress.attempts, (∃ records, attempt.outcome = .resolved records) ∧ service ∈ attempt.group.names

-- Some resolved group has a record at the place of the service.
def Progress.Supplied (progress : Progress) (service : String) : Prop :=
  ∃ attempt ∈ progress.attempts, ∃ records, attempt.outcome = .resolved records ∧
    ∃ (index : Nat) (member : Member), attempt.group.members[index]? = some member ∧ member.name = service ∧
      index < records.length

section Supplied
variable {progress : Progress} {service : String}

theorem supplied_iff : progress.Supplied service ↔
    ∃ answer ∈ progress.attempts.flatMap Attempt.answers, answer.1.name = service := by
  constructor
  · intro given
    obtain ⟨attempt, made, records, resolved, index, member, placed, rfl, within⟩ := given
    have answered : (member, records[index]) ∈ attempt.answers :=
      answer_placed.mpr ⟨records, index, resolved, placed, List.getElem?_eq_getElem within⟩
    exact ⟨_, List.mem_flatMap.mpr ⟨attempt, made, answered⟩, rfl⟩
  · intro given
    obtain ⟨answer, answered, rfl⟩ := given
    obtain ⟨attempt, made, found⟩ := List.mem_flatMap.mp answered
    obtain ⟨records, index, resolved, placed, held⟩ := answer_placed.mp found
    exact ⟨attempt, made, records, resolved, index, answer.1, placed, rfl, (List.getElem?_eq_some_iff.mp held).1⟩

theorem Progress.Supplied.resolved (supplied : progress.Supplied service) : progress.Resolved service := by
  obtain ⟨attempt, made, records, resolved, index, member, placed, rfl, _⟩ := supplied
  exact ⟨attempt, made, ⟨records, resolved⟩, List.mem_map_of_mem (List.mem_of_getElem? placed)⟩

end Supplied

theorem run_values {plan : Plan} {world : World} {overrides : Record} {tally : Tally} {result : RunResult}
    (returned : (plan.run world overrides tally).result = .ok result) :
    result.values = plan.snapshot overrides (plan.run world overrides tally).progress.rounds := by
  obtain ⟨_, progress, passes, _, ended⟩ := run_ended returned
  rw [run_result_eq returned]
  cases ended with
  | inl completed =>
    rw [completed.2]
    exact passes.values_eq
  | inr stopped =>
    obtain ⟨level, _, _, equal⟩ := stopped
    rw [equal]
    exact passes.values_eq

namespace Context
variable {context : Context} {providers : Providers} {policy : Policy} {overrides : Record}

theorem get?_start {plan : Plan} {tally : Tally} (name : String) :
    (Progress.start plan overrides tally).values.get? name =
      (overrides.get? name).or ((plan.constants.get? name).map Value.str) := by
  have rows : (plan.constants.rows.map fun row => (row.1, Value.str row.2)) =
      (plan.constants.mapRows fun _ text => Value.str text).rows := rfl
  unfold Progress.start
  rw [Table.get?_insertAll_rows, rows, Table.get?_insertAll_rows, Table.get?_mapRows, Table.get?_empty,
    Option.or_none]

section Snapshots
variable {rounds : List Round} {name : String}

theorem snapshot_unwritten (silent : name ∉ overrides.keys → ∀ service field,
      context.bindings.get? name ≠ some (.reference service field)) :
    ((context.plan providers policy).snapshot overrides rounds).get? name =
      (overrides.get? name).or ((context.constants.get? name).map Value.str) := by
  rw [Plan.snapshot, Table.get?_insertAll_of_absent, get?_start]
  · rfl
  · intro listed
    obtain ⟨⟨_, value⟩, written, rfl⟩ := List.mem_map.mp listed
    obtain ⟨free, _, _, field, bound, _⟩ := mem_writes.mp written
    exact silent (Table.contains_eq_false.mp free) _ field bound

theorem snapshot_overridden {value : Value} (held : overrides.get? name = some value) :
    ((context.plan providers policy).snapshot overrides rounds).get? name = some value := by
  have overridden : name ∈ overrides.keys := Table.mem_keys.mpr ⟨value, held⟩
  rw [snapshot_unwritten fun free => absurd overridden free, held, Option.some_or]

theorem snapshot_constant {text : String} (bound : context.bindings.get? name = some (.constant text))
    (free : name ∉ overrides.keys) :
    ((context.plan providers policy).snapshot overrides rounds).get? name = some (.str text) := by
  rw [snapshot_unwritten fun _ service field => by simp [bound], Table.get?_eq_none.mpr free, Option.none_or,
    get?_constants.mpr bound, Option.map_some]

theorem mem_start {tally : Tally} : name ∈ (Progress.start (context.plan providers policy) overrides tally).values.keys ↔
    (∃ text, context.bindings.get? name = some (.constant text)) ∨ name ∈ overrides.keys := by
  have constants : (context.plan providers policy).constants = context.constants := rfl
  rw [Table.mem_keys, get?_start, constants, Table.mem_keys]
  cases overridden : overrides.get? name with
  | some value => simp
  | none => simp [get?_constants]

theorem mem_snapshot : name ∈ ((context.plan providers policy).snapshot overrides rounds).keys ↔
    (∃ text, context.bindings.get? name = some (.constant text)) ∨ name ∈ overrides.keys ∨
      ∃ answer ∈ (rounds.flatMap Round.attempts).flatMap Attempt.answers, ∃ field,
        context.bindings.get? name = some (.reference answer.1.name field) := by
  rw [Plan.snapshot, Table.mem_keys_insertAll, mem_start, List.mem_map]
  constructor
  · intro given
    cases given with
    | inl written =>
      obtain ⟨⟨_, value⟩, listed, rfl⟩ := written
      obtain ⟨_, answer, answered, field, bound, _⟩ := mem_writes.mp listed
      exact Or.inr (Or.inr ⟨answer, answered, field, bound⟩)
    | inr known => exact known.imp_right Or.inl
  · intro given
    rcases given with constant | overridden | ⟨answer, answered, field, bound⟩
    · exact Or.inr (Or.inl constant)
    · exact Or.inr (Or.inr overridden)
    · by_cases overridden : name ∈ overrides.keys
      · exact Or.inr (Or.inr overridden)
      · have free := Table.contains_eq_false.mpr overridden
        exact Or.inl ⟨_, mem_writes.mpr ⟨free, answer, answered, field, bound, rfl⟩, rfl⟩

theorem snapshot_lacking {service field : String} (bound : context.bindings.get? name = some (.reference service field))
    (free : name ∉ overrides.keys)
    (lacks : ∀ answer ∈ (rounds.flatMap Round.attempts).flatMap Attempt.answers, answer.1.name ≠ service) :
    ((context.plan providers policy).snapshot overrides rounds).get? name = none := by
  rw [Table.get?_eq_none, mem_snapshot]
  intro known
  rcases known with ⟨text, constant⟩ | overridden | ⟨answer, answered, other, reference⟩
  · rw [bound] at constant
    cases constant
  · exact free overridden
  · rw [bound] at reference
    cases reference
    exact lacks answer answered rfl

end Snapshots

end Context
end WiredViews
