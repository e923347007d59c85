import WiredViews.Proofs.TimelyLevels

namespace WiredViews
namespace Context
variable {context : Context} {providers : Providers} {policy : Policy}

structure Layered (context : Context) (providers : Providers) (policy : Policy) : Prop where
  longest : policy.levels = .longestPath
  known : context.ProvidersKnown providers
  declared : context.Declared
  settled : context.unresolved = []

theorem build_layered {plan : Plan} (accepted : Plan.build context providers policy = .ok plan)
    (longest : policy.levels = .longestPath) :
    plan = context.plan providers policy ∧ context.Layered providers policy := by
  obtain ⟨rfl, timely⟩ := build_timely accepted
  exact ⟨rfl, longest, timely.known, timely.declared, timely.settled⟩

theorem Layered.timely (layered : context.Layered providers policy) :
    context.Timely providers (context.plan providers policy) :=
  plan_timely layered.known layered.declared layered.settled

section Fields

theorem getD_fieldStep (fields : Table String (Table String (List String))) (owner output name service : String) :
    (fields.alter owner fun held => (held.getD ∅).push output name).getD service ∅ =
      if owner = service then (fields.getD service ∅).push output name else fields.getD service ∅ := by
  unfold Table.alter Table.getD
  rw [Table.get?_insert]
  split
  · rename_i same
    rw [same]
    rfl
  · rfl

theorem getD_fieldRows (rows : List (String × String × String))
    (fields : Table String (Table String (List String))) (service field : String) :
    ((rows.foldl (fun fields row => fields.alter row.2.1 fun held => (held.getD ∅).push row.2.2 row.1)
      fields).getD service ∅).getD field [] =
      (fields.getD service ∅).getD field [] ++ (rows.filter fun row => row.2 = (service, field)).map Prod.fst := by
  induction rows generalizing fields with
  | nil => simp
  | cons row rest ih =>
    obtain ⟨name, owner, output⟩ := row
    have here : ((fields.alter owner fun held => (held.getD ∅).push output name).getD service ∅).getD field [] =
        (fields.getD service ∅).getD field [] ++ if (owner, output) = (service, field) then [name] else [] := by
      rw [getD_fieldStep]
      by_cases same : owner = service
      · rw [if_pos same, Table.getD_push]
        by_cases equal : output = field <;> simp [same, equal]
      · simp [same]
    rw [List.foldl_cons, ih, here, List.append_assoc]
    by_cases same : (owner, output) = (service, field) <;> simp [same]

theorem mem_fieldRows (rows : List (String × String × String)) (fields : Table String (Table String (List String)))
    (service : String) : service ∈ (rows.foldl (fun fields row =>
      fields.alter row.2.1 fun held => (held.getD ∅).push row.2.2 row.1) fields).keys ↔
      service ∈ fields.keys ∨ ∃ row ∈ rows, row.2.1 = service := by
  induction rows generalizing fields with
  | nil => simp
  | cons row rest ih =>
    rw [List.foldl_cons, ih, Table.alter, Table.mem_keys_insert, List.exists_mem_cons_iff, eq_comm, or_assoc,
      or_left_comm]

theorem mem_fieldRows_fields (rows : List (String × String × String))
    (fields : Table String (Table String (List String))) (service field : String) :
    field ∈ ((rows.foldl (fun fields row => fields.alter row.2.1 fun held => (held.getD ∅).push row.2.2 row.1)
      fields).getD service ∅).keys ↔
      field ∈ (fields.getD service ∅).keys ∨ ∃ row ∈ rows, row.2 = (service, field) := by
  induction rows generalizing fields with
  | nil => simp
  | cons row rest ih =>
    obtain ⟨name, owner, output⟩ := row
    rw [List.foldl_cons, ih, getD_fieldStep, List.exists_mem_cons_iff, Prod.mk.injEq]
    by_cases same : owner = service
    · rw [if_pos same, Table.push, Table.alter, Table.mem_keys_insert]
      simp only [same, true_and]
      rw [eq_comm, or_assoc, or_left_comm]
    · simp [same]

theorem mem_fieldTable {service field name : String} :
    name ∈ (context.fieldTable.getD service ∅).getD field [] ↔
      context.bindings.get? name = some (.reference service field) := by
  rw [fieldTable, getD_fieldRows, ← get?_references, Table.get?_eq_some]
  have nothing : ((∅ : Table String (Table String (List String))).getD service ∅).getD field [] = [] := rfl
  rw [nothing, List.nil_append, List.mem_map]
  constructor
  · intro given
    obtain ⟨row, kept, rfl⟩ := given
    obtain ⟨member, same⟩ := List.mem_filter.mp kept
    rw [decide_eq_true_eq] at same
    rwa [← same]
  · intro member
    exact ⟨_, List.mem_filter.mpr ⟨member, by simp⟩, rfl⟩

theorem mem_fieldWrites {service name : String} {record : Record} {value : Value} :
    (name, value) ∈ ((context.fieldTable.getD service ∅).rows.flatMap fun row =>
      row.2.map fun name => (name, record.read row.1)) ↔
      ∃ field, context.bindings.get? name = some (.reference service field) ∧ value = record.read field := by
  simp only [List.mem_flatMap, List.mem_map, Prod.mk.injEq]
  constructor
  · intro given
    obtain ⟨⟨field, names⟩, member, other, listed, rfl, rfl⟩ := given
    refine ⟨field, mem_fieldTable.mp ?_, rfl⟩
    rwa [Table.getD_of_get? (Table.get?_eq_some.mpr member)]
  · intro given
    obtain ⟨field, held, rfl⟩ := given
    have listed := mem_fieldTable.mpr held
    cases found : (context.fieldTable.getD service ∅).get? field with
    | none =>
      rw [Table.getD, found] at listed
      simp at listed
    | some names =>
      rw [Table.getD_of_get? found] at listed
      exact ⟨(field, names), Table.get?_eq_some.mp found, name, listed, rfl, rfl⟩

end Fields

section Levels
variable {count : Nat} {level : Level}

theorem levels_length (longest : policy.levels = .longestPath) :
    (context.plan providers policy).levels.length = context.longestPathLevels.length := by
  unfold plan
  rw [List.length_mapIdx, longest]
  rfl

theorem level_member (layered : context.Layered providers policy)
    (place : (context.plan providers policy).levels[count]? = some level) {group : Group} {member : Member}
    (grouped : group ∈ level.groups) (listed : member ∈ group.members) :
    context.services.get? member.name = some ⟨group.provider, member.dependencies⟩ ∧
      context.rankOf member.name = count := by
  obtain ⟨names, found, equal⟩ := level_grouped place
  rw [layered.longest] at found
  obtain ⟨placed, held⟩ := mem_groupServices (equal ▸ grouped) listed
  exact ⟨held, ((mem_level layered.settled found).mp placed).2⟩

theorem mem_level_iff (layered : context.Layered providers policy)
    (listed : level ∈ (context.plan providers policy).levels) {name : String} :
    name ∈ level.names ↔ name ∈ context.services.keys ∧ context.rankOf name = level.index := by
  obtain ⟨place, found⟩ := List.getElem?_of_mem listed
  rw [level_index found]
  constructor
  · intro named
    obtain ⟨group, grouped, inside⟩ := List.mem_flatMap.mp named
    obtain ⟨member, kept, rfl⟩ := List.mem_map.mp inside
    obtain ⟨held, rank⟩ := level_member layered found grouped kept
    exact ⟨Table.mem_keys.mpr ⟨_, held⟩, rank⟩
  · intro given
    obtain ⟨known, rank⟩ := given
    obtain ⟨there, placed, group, grouped, member, kept, rfl⟩ := layered.timely.covered name known
    rw [rank, found] at placed
    cases placed
    exact List.mem_flatMap.mpr ⟨group, grouped, List.mem_map_of_mem kept⟩

theorem mem_services_iff (layered : context.Layered providers policy) {name : String} :
    name ∈ context.services.keys ↔ ∃ level ∈ (context.plan providers policy).levels, name ∈ level.names := by
  constructor
  · intro known
    obtain ⟨level, place, _⟩ := layered.timely.covered name known
    have listed := List.mem_of_getElem? place
    exact ⟨level, listed, (mem_level_iff layered listed).mpr ⟨known, (level_index place).symm⟩⟩
  · intro given
    obtain ⟨level, listed, named⟩ := given
    exact ((mem_level_iff layered listed).mp named).1

end Levels

end Context

def Attempt.answers (attempt : Attempt) : List (Member × Record) :=
  match attempt.outcome with
  | .resolved records => attempt.group.members.zip records
  | _ => []

theorem mem_answers {attempt : Attempt} {answer : Member × Record} :
    answer ∈ attempt.answers ↔
      ∃ records, attempt.outcome = .resolved records ∧ answer ∈ attempt.group.members.zip records := by
  unfold Attempt.answers
  cases attempt.outcome <;> simp

theorem answer_placed {attempt : Attempt} {answer : Member × Record} : answer ∈ attempt.answers ↔
    ∃ (records : List Record) (index : Nat), attempt.outcome = .resolved records ∧
      attempt.group.members[index]? = some answer.1 ∧ records[index]? = some answer.2 := by
  rw [mem_answers]
  simp only [List.mem_iff_getElem?, List.getElem?_zip_eq_some, exists_and_left]

theorem answer_member {attempts : List Attempt} {answer : Member × Record}
    (answered : answer ∈ attempts.flatMap Attempt.answers) :
    ∃ attempt ∈ attempts, answer.1 ∈ attempt.group.members := by
  obtain ⟨attempt, made, listed⟩ := List.mem_flatMap.mp answered
  obtain ⟨_, _, zipped⟩ := mem_answers.mp listed
  exact ⟨attempt, made, (List.of_mem_zip zipped).1⟩

theorem zip_firsts {α β : Type} (left : List α) (right : List β) :
    ((left.zip right).map Prod.fst).Sublist left := by
  induction left generalizing right with
  | nil => simp
  | cons first rest ih =>
    cases right with
    | nil => simp
    | cons other others => exact (ih others).cons_cons first

theorem answers_names (attempts : List Attempt) :
    ((attempts.flatMap Attempt.answers).map fun answer => answer.1.name).Sublist
      (attempts.flatMap fun attempt => attempt.group.names) := by
  induction attempts with
  | nil => simp
  | cons attempt rest ih =>
    rw [List.flatMap_cons, List.map_append, List.flatMap_cons]
    refine List.Sublist.append ?_ ih
    unfold Attempt.answers
    split
    · rename_i records _
      have zipped : ((attempt.group.members.zip records).map fun answer => answer.1.name) =
          ((attempt.group.members.zip records).map Prod.fst).map Member.name := by simp
      rw [zipped]
      exact (zip_firsts _ _).map _
    · simp

namespace Context
variable {context : Context} {providers : Providers} {policy : Policy} {overrides : Record}

-- The variables of a service hold the fields of its record, where nothing overrides them.
def Filled (context : Context) (overrides values : Record) (service : String) (record : Record) : Prop :=
  ∀ name field, context.bindings.get? name = some (.reference service field) → name ∉ overrides.keys →
    values.get? name = some ((record.get? field).getD .null)

theorem mem_writes {attempts : List Attempt} {name : String} {value : Value} :
    (name, value) ∈ attempts.flatMap ((context.plan providers policy).writes overrides) ↔
      overrides.contains name = false ∧ ∃ answer ∈ attempts.flatMap Attempt.answers, ∃ field,
        context.bindings.get? name = some (.reference answer.1.name field) ∧
          value = answer.2.read field := by
  have single : ∀ attempt : Attempt, (name, value) ∈ (context.plan providers policy).writes overrides attempt ↔
      overrides.contains name = false ∧ ∃ answer ∈ attempt.answers, ∃ field,
        context.bindings.get? name = some (.reference answer.1.name field) ∧
          value = answer.2.read field := by
    intro attempt
    unfold Plan.writes Attempt.answers
    cases attempt.outcome with
    | resolved records =>
      dsimp only [Plan.updates]
      rw [List.mem_filter, List.mem_flatMap, Bool.not_eq_true', and_comm]
      have fields : (context.plan providers policy).fields = context.fieldTable := rfl
      simp only [fields, mem_fieldWrites]
    | placeholder | failed | rejected | mistyped => simp
  simp only [List.mem_flatMap, single]
  constructor
  · intro given
    obtain ⟨attempt, member, free, answer, listed, read⟩ := given
    exact ⟨free, answer, ⟨attempt, member, listed⟩, read⟩
  · intro given
    obtain ⟨free, answer, ⟨attempt, member, listed⟩, read⟩ := given
    exact ⟨attempt, member, free, answer, listed, read⟩

section Written
variable {level : Level} {progress : Progress} {world : World} {name : String}

theorem pass_unwritten (silent : name ∉ overrides.keys → ∀ answer ∈
      ((context.plan providers policy).roundOf world progress level).attempts.flatMap Attempt.answers,
      ∀ field, context.bindings.get? name ≠ some (.reference answer.1.name field)) :
    ((context.plan providers policy).pass world overrides progress level).values.get? name =
      progress.values.get? name := by
  rw [pass_values]
  refine Table.get?_insertAll_of_absent fun listed => ?_
  obtain ⟨⟨_, value⟩, written, rfl⟩ := List.mem_map.mp listed
  obtain ⟨free, answer, answered, field, bound, _⟩ := mem_writes.mp written
  exact silent (Table.contains_eq_false.mp free) answer answered field bound

section Once
variable (once : (((context.plan providers policy).roundOf world progress level).attempts.flatMap fun attempt =>
    attempt.group.names).Nodup)
include once

-- Names stand once in a round, so one service has one record, and one variable one value.
theorem writes_agree {value other : Value}
    (written : (name, value) ∈ ((context.plan providers policy).roundOf world progress level).attempts.flatMap
      ((context.plan providers policy).writes overrides))
    (rewritten : (name, other) ∈ ((context.plan providers policy).roundOf world progress level).attempts.flatMap
      ((context.plan providers policy).writes overrides)) : value = other := by
  obtain ⟨_, answer, answered, field, bound, rfl⟩ := mem_writes.mp written
  obtain ⟨_, twin, reanswered, output, rebound, rfl⟩ := mem_writes.mp rewritten
  rw [bound] at rebound
  simp only [Option.some.injEq, Variable.reference.injEq] at rebound
  have same : answer = twin :=
    List.inj_on_of_nodup_map (once.sublist (answers_names _)) answered reanswered rebound.1
  rw [same, rebound.2]

theorem pass_written {answer : Member × Record}
    (answered : answer ∈
      ((context.plan providers policy).roundOf world progress level).attempts.flatMap Attempt.answers) :
    context.Filled overrides ((context.plan providers policy).pass world overrides progress level).values
      answer.1.name answer.2 := by
  intro name field bound free
  have written : (name, answer.2.read field) ∈
      ((context.plan providers policy).roundOf world progress level).attempts.flatMap
        ((context.plan providers policy).writes overrides) :=
    mem_writes.mpr ⟨Table.contains_eq_false.mpr free, answer, answered, field, bound, rfl⟩
  rw [pass_values]
  refine Table.get?_insertAll_of_agree written ?_
  rintro ⟨_, value⟩ rewritten rfl
  exact writes_agree once rewritten written

end Once

end Written

section Rounds
variable {count : Nat} {level : Level} {progress : Progress} {world : World}

theorem candidate_member (layered : context.Layered providers policy)
    (place : (context.plan providers policy).levels[count]? = some level) {group : Group} {member : Member}
    (candidate : group ∈ progress.candidates level) (listed : member ∈ group.members) :
    context.services.get? member.name = some ⟨group.provider, member.dependencies⟩ ∧
      context.rankOf member.name = count ∧ member.name ∉ progress.pruned := by
  obtain ⟨_, whole, grouped, rfl⟩ := mem_candidates.mp candidate
  obtain ⟨kept, left⟩ := List.mem_filter.mp listed
  obtain ⟨held, rank⟩ := level_member layered place grouped kept
  exact ⟨held, rank, by simpa [Progress.isPruned] using left⟩

theorem candidate_covers (layered : context.Layered providers policy)
    (place : (context.plan providers policy).levels[count]? = some level) {name : String}
    (known : name ∈ context.services.keys) (rank : context.rankOf name = count)
    (left : name ∉ progress.pruned) : ∃ group ∈ progress.candidates level, name ∈ group.names := by
  obtain ⟨group, candidate, member, listed, rfl⟩ := layered.timely.last_turn place known rank left
  exact ⟨group, candidate, List.mem_map_of_mem listed⟩

end Rounds

end Context
end WiredViews
