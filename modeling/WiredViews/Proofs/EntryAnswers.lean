import WiredViews.Proofs.ServiceArguments

namespace WiredViews

def Reply.Answers (answer : Record → Record) (batch : Batch) (reply : Reply) : Prop :=
  ∃ left, reply.Records left (batch.map answer)

-- An exception that is neither of the two with a meaning of their own, or anything that is
-- not a record for each entry of the batch as it was left.
inductive Reply.Fails : Reply → Prop where
  | raised (failure : ProviderFailure) : Fails (.raised (.failure failure))
  | malformed {left : Batch} {result : Returned}
      (spoilt : ∀ records, ¬ (Reply.returned left result).Records left records) : Fails (.returned left result)

def Context.Uses (context : Context) (providers : Providers) (number : Nat) : Prop :=
  ∃ row ∈ context.services.rows, ∃ provider, providers.get? row.2.provider = some provider ∧
    provider.callback = .registered number

-- Nothing is said of providers that no service uses, nor of those that only overrides fill.
def Context.Pure (context : Context) (providers : Providers) (world : World) : Prop :=
  ∀ number, context.Uses providers number → ∃ answer, ∀ calls batch,
    ((world number).reply calls batch).Answers answer batch

section Replies
variable {answer : Record → Record} {batch : Batch} {reply : Reply} {provider : String}

theorem outcome_answers (answers : reply.Answers answer batch) :
    reply.outcome provider = .resolved (batch.map answer) :=
  outcome_exact.mpr answers

theorem outcome_fails (fails : reply.Fails) : ∃ failure, reply.outcome provider = .failed failure := by
  cases fails with
  | raised failure => exact ⟨failure, rfl⟩
  | @malformed left result spoilt =>
    cases read : result.records provider left.length with
    | error failure => exact ⟨failure, by simp only [Reply.outcome, read]⟩
    | ok records =>
      obtain ⟨rows, replied⟩ := returned_exact.mp read
      exact absurd ⟨result, rows, rfl, replied⟩ (spoilt records)

theorem objects_answer {fields : Record → List (String × Value)} {result : Returned}
    (lists : result.Lists (batch.map fun entry => .object (fields entry))) :
    (Reply.returned batch result).Answers (fun entry => Table.ofList (fields entry)) batch :=
  ⟨batch, result, batch.map fields, rfl, by rwa [List.map_map], List.length_map .., by rw [List.map_map]; rfl⟩

end Replies

namespace Context
variable {context : Context} {providers : Providers} {policy : Policy} {world : World}
  {answers : Nat → Record → Record} {overrides : Record}

def Serves (context : Context) (providers : Providers) (answers : Nat → Record → Record) (world : World) : Prop :=
  ∀ number, context.Uses providers number → ∀ calls batch,
    ((world number).reply calls batch).Answers (answers number) batch ∨ ((world number).reply calls batch).Fails

def Reliable (context : Context) (providers : Providers) (answers : Nat → Record → Record) (world : World) : Prop :=
  ∀ number, context.Uses providers number → ∀ calls batch,
    ((world number).reply calls batch).Answers (answers number) batch

theorem Reliable.serves (reliable : context.Reliable providers answers world) :
    context.Serves providers answers world :=
  fun number used calls batch => Or.inl (reliable number used calls batch)

def recordOf (context : Context) (providers : Providers) (answers : Nat → Record → Record) (values : Record)
    (service : String) : Option Record :=
  match context.services.get? service with
  | none => none
  | some held =>
    match (providers.getD held.provider systemProvider).callback with
    | .placeholder => none
    | .registered number => some (answers number (context.argumentsOf values service))

def refusal? (context : Context) (providers : Providers) (values : Record) (service : String) : Option RunError :=
  match context.services.get? service with
  | none => none
  | some held =>
    Member.error? ⟨service, held.dependencies⟩ held.provider
      (providers.getD held.provider systemProvider).model values

theorem member_refusal {member : Member} {provider : String} (values : Record)
    (held : context.services.get? member.name = some ⟨provider, member.dependencies⟩) :
    member.error? provider (providers.getD provider systemProvider).model values =
      context.refusal? providers values member.name := by
  unfold refusal?
  rw [held]

theorem recordOf_congr {first second : Record} {service : String}
    (same : context.argumentsOf first service = context.argumentsOf second service) :
    context.recordOf providers answers first service = context.recordOf providers answers second service := by
  unfold recordOf
  rw [same]

theorem refusal_congr {first second : Record} {service : String}
    (same : context.argumentsOf first service = context.argumentsOf second service) :
    context.refusal? providers first service = context.refusal? providers second service := by
  unfold refusal?
  unfold argumentsOf at same
  cases held : context.services.get? service with
  | none => rfl
  | some found =>
    rw [held] at same
    dsimp only at same ⊢
    unfold Member.error?
    rw [same]

theorem recordOf_none {first : Record} (second : Record) {service : String}
    (nobody : context.recordOf providers answers first service = none) :
    context.recordOf providers answers second service = none := by
  unfold recordOf at nobody ⊢
  cases held : context.services.get? service with
  | none => rfl
  | some found =>
    rw [held] at nobody
    dsimp only at nobody ⊢
    cases callback : (providers.getD found.provider systemProvider).callback with
    | placeholder => rfl
    | registered number =>
      rw [callback] at nobody
      cases nobody

section Rounds
variable {count : Nat} {level : Level} {progress : Progress}

theorem uses_of_held {name : String} {service : Service} {number : Nat} (known : context.ProvidersKnown providers)
    (held : context.services.get? name = some service)
    (registered : (providers.getD service.provider systemProvider).callback = .registered number) :
    context.Uses providers number := by
  have listed := Table.get?_eq_some.mp held
  obtain ⟨provider, found⟩ := Table.mem_keys.mp (known _ listed)
  rw [Table.getD_of_get? found] at registered
  exact ⟨_, listed, provider, found, registered⟩

theorem candidate_uses (timely : context.Timely providers (context.plan providers policy))
    (place : (context.plan providers policy).levels[count]? = some level) {group : Group}
    (candidate : group ∈ progress.candidates level) {number : Nat}
    (registered : (providers.getD group.provider systemProvider).callback = .registered number) :
    context.Uses providers number := by
  obtain ⟨member, listed⟩ := List.exists_mem_of_ne_nil _ (mem_candidates.mp candidate).1
  exact uses_of_held timely.known (timely.candidate place candidate listed).1 registered

-- What an attempt comes to. Refusals are decided before anything is called.
inductive Turn (context : Context) (providers : Providers) (answers : Nat → Record → Record) (values : Record)
    (attempt : Attempt) : Prop where
  | refused {error : RunError} {member : Member} (listed : member ∈ attempt.group.members)
      (unfit : context.refusal? providers values member.name = some error)
      (outcome : attempt.outcome = .rejected error) : Turn context providers answers values attempt
  | idle (fit : ∀ member ∈ attempt.group.members, context.refusal? providers values member.name = none)
      (nobody : (providers.getD attempt.group.provider systemProvider).callback = .placeholder)
      (outcome : attempt.outcome = .placeholder) : Turn context providers answers values attempt
  | answered {number : Nat}
      (fit : ∀ member ∈ attempt.group.members, context.refusal? providers values member.name = none)
      (registered : (providers.getD attempt.group.provider systemProvider).callback = .registered number)
      (outcome : attempt.outcome = .resolved (attempt.group.members.map fun member =>
        answers number (context.argumentsOf values member.name))) : Turn context providers answers values attempt
  | failed {failure : ProviderFailure}
      (fit : ∀ member ∈ attempt.group.members, context.refusal? providers values member.name = none)
      (outcome : attempt.outcome = .failed failure) : Turn context providers answers values attempt

section Candidates
variable {group : Group} {values : Record}
  (held : ∀ member ∈ group.members,
    context.services.get? member.name = some ⟨group.provider, member.dependencies⟩)
include held

theorem group_fits (fit : group.error? (providers.getD group.provider systemProvider).model values = none) :
    ∀ member ∈ group.members, context.refusal? providers values member.name = none := by
  intro member listed
  rw [← member_refusal values (held member listed)]
  exact List.findSome?_eq_none_iff.mp fit member listed

theorem group_unfit {error : RunError}
    (unfit : group.error? (providers.getD group.provider systemProvider).model values = some error) :
    ∃ member ∈ group.members, context.refusal? providers values member.name = some error := by
  obtain ⟨member, listed, found⟩ := List.exists_of_findSome?_eq_some unfit
  exact ⟨member, listed, (member_refusal values (held member listed)).symm.trans found⟩

end Candidates

theorem round_turn (serves : context.Serves providers answers world)
    (timely : context.Timely providers (context.plan providers policy))
    (place : (context.plan providers policy).levels[count]? = some level) {attempt : Attempt}
    (made : attempt ∈ ((context.plan providers policy).roundOf world progress level).attempts) :
    context.Turn providers answers progress.values attempt := by
  have candidate := round_candidate made
  have held : ∀ member ∈ attempt.group.members,
      context.services.get? member.name = some ⟨attempt.group.provider, member.dependencies⟩ :=
    fun member listed => (timely.candidate place candidate listed).1
  have happened := round_attempted made
  clear made
  cases happened with
  | @refused group error unfit =>
    obtain ⟨member, listed, refusal⟩ := group_unfit held unfit
    exact .refused listed refusal rfl
  | @idle group fit nobody => exact .idle (group_fits held fit) nobody rfl
  | @called group number calls fit registered =>
    rcases serves number (candidate_uses timely place candidate registered) calls
      (group.batch progress.values) with replied | failing
    · refine .answered (group_fits held fit) registered ((outcome_answers replied).trans ?_)
      rw [group_batch_eq held, List.map_map]
      rfl
    · obtain ⟨failure, outcome⟩ := outcome_fails failing
      exact .failed (group_fits held fit) outcome

theorem round_answer (serves : context.Serves providers answers world)
    (timely : context.Timely providers (context.plan providers policy))
    (place : (context.plan providers policy).levels[count]? = some level) {answer : Member × Record}
    (answered : answer ∈
      ((context.plan providers policy).roundOf world progress level).attempts.flatMap Attempt.answers) :
    count ≤ context.rankOf answer.1.name ∧
      context.recordOf providers answers progress.values answer.1.name = some answer.2 := by
  obtain ⟨attempt, made, found⟩ := List.mem_flatMap.mp answered
  obtain ⟨records, resolved, zipped⟩ := mem_answers.mp found
  obtain ⟨held, rank, _⟩ := timely.candidate place (round_candidate made) (List.of_mem_zip zipped).1
  refine ⟨rank, ?_⟩
  cases round_turn serves timely place made with
  | refused _ _ outcome => simp [outcome] at resolved
  | idle _ _ outcome => simp [outcome] at resolved
  | failed _ outcome => simp [outcome] at resolved
  | @answered number _ registered outcome =>
    rw [outcome, Outcome.resolved.injEq] at resolved
    rw [← resolved, ← List.map_prod_left_eq_zip, List.mem_map] at zipped
    obtain ⟨member, _, rfl⟩ := zipped
    simp only [recordOf, held, registered]

theorem turn_answers (serves : context.Serves providers answers world)
    (timely : context.Timely providers (context.plan providers policy))
    (place : (context.plan providers policy).levels[count]? = some level)
    (calm : ((context.plan providers policy).roundOf world progress level).fatal? = none) {attempt : Attempt}
    (made : attempt ∈ ((context.plan providers policy).roundOf world progress level).attempts) {member : Member}
    (listed : member ∈ attempt.group.members) (unfailed : ∀ failure, attempt.outcome ≠ .failed failure)
    {record : Record} (expected : context.recordOf providers answers progress.values member.name = some record) :
    ∃ answer ∈ ((context.plan providers policy).roundOf world progress level).attempts.flatMap Attempt.answers,
      answer.1.name = member.name ∧ answer.2 = record := by
  obtain ⟨held, _⟩ := timely.candidate place (round_candidate made) listed
  simp only [recordOf, held] at expected
  cases round_turn serves timely place made with
  | refused _ _ outcome => exact absurd outcome (calm_not_rejected calm made _)
  | idle _ nobody _ =>
    rw [nobody] at expected
    cases expected
  | failed _ outcome => exact absurd outcome (unfailed _)
  | @answered number _ registered outcome =>
    rw [registered, Option.some.injEq] at expected
    refine ⟨(member, record), List.mem_flatMap.mpr ⟨attempt, made, mem_answers.mpr ⟨_, outcome, ?_⟩⟩, rfl, rfl⟩
    rw [← List.map_prod_left_eq_zip, ← expected]
    exact List.mem_map_of_mem listed

section LastTurns
variable (serves : context.Serves providers answers world)
  (timely : context.Timely providers (context.plan providers policy))
  (place : (context.plan providers policy).levels[count]? = some level)
  (calm : ((context.plan providers policy).roundOf world progress level).fatal? = none) {name : String}
  (known : name ∈ context.services.keys) (rank : context.rankOf name = count) (left : name ∉ progress.pruned)
include timely place known rank left

theorem last_turn_attempt : ∃ attempt ∈ ((context.plan providers policy).roundOf world progress level).attempts,
    ∃ member ∈ attempt.group.members, member.name = name ∧
      context.services.get? name = some ⟨attempt.group.provider, member.dependencies⟩ := by
  obtain ⟨group, candidate, member, listed, rfl⟩ := timely.last_turn place known rank left
  obtain ⟨held, _⟩ := timely.candidate place candidate listed
  rw [← round_groups (context.plan providers policy) world] at candidate
  obtain ⟨attempt, made, rfl⟩ := List.mem_map.mp candidate
  exact ⟨attempt, made, member, listed, rfl, held⟩

include serves calm

theorem last_turn_fits : context.refusal? providers progress.values name = none := by
  obtain ⟨attempt, made, member, listed, rfl, _⟩ := @last_turn_attempt _ _ _ world _ _ _ timely place _ known rank left
  cases round_turn serves timely place made with
  | refused _ _ outcome => exact absurd outcome (calm_not_rejected calm made _)
  | idle fit _ _ => exact fit member listed
  | answered fit _ _ => exact fit member listed
  | failed fit _ => exact fit member listed

theorem last_turn_answers
    (spared : name ∉ ((context.plan providers policy).roundOf world progress level).attempts.flatMap
      Attempt.failedNames) {record : Record}
    (expected : context.recordOf providers answers progress.values name = some record) :
    ∃ answer ∈ ((context.plan providers policy).roundOf world progress level).attempts.flatMap Attempt.answers,
      answer.1.name = name ∧ answer.2 = record := by
  obtain ⟨attempt, made, member, listed, rfl, _⟩ :=
    @last_turn_attempt _ _ _ world _ _ _ timely place _ known rank left
  apply turn_answers serves timely place calm made listed _ expected
  intro failure outcome
  exact spared (mem_failedNames.mpr ⟨attempt, made, ⟨_, outcome⟩, List.mem_map_of_mem listed⟩)

end LastTurns

end Rounds
end Context
end WiredViews
