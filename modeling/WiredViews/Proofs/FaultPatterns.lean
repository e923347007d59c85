import WiredViews.Proofs.Containment
import WiredViews.Proofs.LevelStrategies

namespace WiredViews

def Progress.Handed (progress : Progress) (name : String) (arguments : Record) : Prop :=
  ∃ attempt ∈ progress.attempts, ∃ member, member.name = name ∧
    (member, arguments) ∈ attempt.group.members.zip attempt.batch

namespace Context
variable {context : Context} {providers : Providers} {policy : Policy} {world faulty : World}
  {answers : Nat → Record → Record} {overrides : Record}

-- Providers that answer entry by entry, and the same providers when some of their calls,
-- no matter which, fail instead.
def Disturbed (context : Context) (providers : Providers) (world faulty : World) : Prop :=
  ∀ number, context.Uses providers number → ∃ answer, ∀ calls batch,
    ((world number).reply calls batch).Answers answer batch ∧
      (((faulty number).reply calls batch).Answers answer batch ∨ ((faulty number).reply calls batch).Fails)

theorem Disturbed.serves (disturbed : context.Disturbed providers world faulty) :
    ∃ answers, context.Reliable providers answers world ∧ context.Serves providers answers faulty := by
  choose! answers both using disturbed
  exact ⟨answers, fun number used calls batch => (both number used calls batch).1,
    fun number used calls batch => (both number used calls batch).2⟩

section Steps
variable {count : Nat} {level : Level} {progress : Progress}

theorem parent_behind (layered : context.Layered providers policy)
    (contained : context.Contained (context.plan providers policy) overrides count progress)
    {parent child : String} (feeds : context.Feeds parent child) (rank : context.rankOf child ≤ count)
    (left : child ∉ progress.pruned) : context.Behind count progress parent := by
  have lower := rank_lt_of_ancestor layered.settled (.single feeds)
  rw [contained.pruned] at left
  refine ⟨by omega, fun failed => left ?_, fun pruned => left ?_⟩
  · exact (cut_iff layered.declared).mpr ⟨parent, failed, .single feeds⟩
  · exact cut_child layered.declared ((contained.pruned parent).mp pruned) feeds

section Beside
variable {values : Record} (layered : context.Layered providers policy)
  (contained : context.Contained (context.plan providers policy) overrides count progress)
  (accounted : context.Accounted providers answers overrides count progress)
  (solved : context.Solves providers answers overrides (fun _ => True) values)
include layered contained accounted solved

theorem behind_agree {name : String} (within : context.Within overrides (context.Behind count progress) name) :
    progress.values.get? name = values.get? name :=
  solutions_agree layered.settled
    (fun _ _ feeds own => parent_behind layered contained feeds (Nat.le_of_lt own.1) own.2.2)
    accounted.solved (solved.mono fun _ _ => trivial) within

theorem spared_arguments {service : String} (rank : context.rankOf service ≤ count)
    (left : service ∉ progress.pruned) :
    context.argumentsOf progress.values service = context.argumentsOf values service :=
  @arguments_congr _ overrides _ _ _ fun _ within =>
    behind_agree layered contained accounted solved fun free parent field bound =>
      parent_behind layered contained (within free parent field bound) rank left

theorem faults_calm (serves : context.Serves providers answers faulty)
    (place : (context.plan providers policy).levels[count]? = some level)
    (fit : ∀ name ∈ context.services.keys, context.refusal? providers values name = none) :
    ((context.plan providers policy).roundOf faulty progress level).fatal? = none := by
  rw [fatal?_eq_none]
  intro attempt made
  cases round_turn serves layered.timely place made with
  | @refused error member listed unfit outcome =>
    obtain ⟨held, rank, left⟩ := candidate_member layered place (round_candidate made) listed
    rw [refusal_congr (spared_arguments layered contained accounted solved (Nat.le_of_eq rank) left),
      fit _ (Table.mem_keys.mpr ⟨_, held⟩)] at unfit
    cases unfit
  | idle _ _ outcome => simp [Attempt.isFatal, Outcome.fatal?, outcome]
  | answered _ _ outcome => simp [Attempt.isFatal, Outcome.fatal?, outcome]
  | failed _ outcome => simp [Attempt.isFatal, Outcome.fatal?, outcome]

end Beside

theorem handed_iff (consistent : context.Consistent providers world overrides count progress) {name : String}
    (batched : progress.Batched name) (arguments : Record) :
    progress.Handed name arguments ↔ arguments = context.argumentsOf progress.values name := by
  have batch : ∀ attempt ∈ progress.attempts, attempt.batch =
      attempt.group.members.map fun member => context.argumentsOf progress.values member.name :=
    fun attempt made => (consistent.handed attempt made).trans
      (group_batch_eq fun member listed => (consistent.served attempt made member listed).1)
  constructor
  · intro given
    obtain ⟨attempt, made, member, rfl, zipped⟩ := given
    rw [batch attempt made, ← List.map_prod_left_eq_zip, List.mem_map] at zipped
    obtain ⟨twin, _, same⟩ := zipped
    cases same
    rfl
  · rintro rfl
    obtain ⟨attempt, made, named, _⟩ := batched
    obtain ⟨member, listed, rfl⟩ := List.mem_map.mp named
    refine ⟨attempt, made, member, rfl, ?_⟩
    rw [batch attempt made, ← List.map_prod_left_eq_zip]
    exact List.mem_map_of_mem listed

end Steps

structure Tracked (context : Context) (plan : Plan) (providers : Providers) (world : World)
    (answers : Nat → Record → Record) (overrides : Record) (count : Nat) (progress : Progress) : Prop where
  consistent : context.Consistent providers world overrides count progress
  contained : context.Contained plan overrides count progress
  accounted : context.Accounted providers answers overrides count progress

theorem tracked_start (tally : Tally) : context.Tracked (context.plan providers policy) providers world answers
    overrides 0 (.start (context.plan providers policy) overrides tally) :=
  ⟨consistent_start tally, contained_start tally, accounted_start tally⟩

theorem tracked_pass {count : Nat} {level : Level} {progress : Progress}
    (layered : context.Layered providers policy)
    (transitive : policy.cascade = .transitive) (serves : context.Serves providers answers world)
    (place : (context.plan providers policy).levels[count]? = some level)
    (before : context.Tracked (context.plan providers policy) providers world answers overrides count progress)
    (calm : ((context.plan providers policy).roundOf world progress level).fatal? = none) :
    context.Tracked (context.plan providers policy) providers world answers overrides (count + 1)
      ((context.plan providers policy).pass world overrides progress level) where
  consistent := consistent_pass layered place before.consistent
  contained := contained_pass layered transitive place before.contained calm
  accounted := accounted_pass serves layered.timely place before.accounted calm

section Returned
variable {run : Run} {result : RunResult} {count : Nat} {progress : Progress} {values : Record}
  (layered : context.Layered providers policy)
  (tracked : context.Tracked (context.plan providers policy) providers world answers overrides count progress)
  (reached : run.Reaches (context.plan providers policy) result count progress)
include layered tracked reached

theorem left_end {name : String} (known : name ∈ context.services.keys)
    (spared : ∀ source ∈ result.failed, ¬ context.Ancestor source name) :
    name ∉ progress.pruned ∧ context.rankOf name < count := by
  have left : name ∉ progress.pruned := by
    rw [tracked.contained.pruned, cut_iff layered.declared]
    rintro ⟨source, failed, chain⟩
    refine spared source ?_ chain
    rwa [reached.failed, mem_distinct]
  refine ⟨left, ?_⟩
  by_contra above
  exact left (tracked.contained.beyond layered reached known (Nat.le_of_not_lt above))

theorem handed_end {name : String} (known : name ∈ context.services.keys)
    (spared : ∀ source ∈ result.failed, ¬ context.Ancestor source name) (arguments : Record) :
    run.progress.Handed name arguments ↔ arguments = context.argumentsOf result.values name := by
  have left := (left_end layered tracked reached known spared).1
  have batched := (tracked.contained.batched_end layered reached name).mpr ⟨known, left⟩
  rw [Progress.Handed, reached.attempts, reached.values]
  exact handed_iff tracked.consistent batched arguments

end Returned

structure Undisturbed (context : Context) (quiet loud : Run) (before after : RunResult) : Prop where
  values : ∀ name, (∀ service field, context.bindings.get? name = some (.reference service field) →
      service ∉ after.failed ∧ ∀ source ∈ after.failed, ¬ context.Ancestor source service) →
    after.values.get? name = before.values.get? name
  handed : ∀ name ∈ context.services.keys, (∀ source ∈ after.failed, ¬ context.Ancestor source name) →
    ∃ arguments, ∀ record, (quiet.progress.Handed name record ↔ record = arguments) ∧
      (loud.progress.Handed name record ↔ record = arguments)

section Faults
variable {plan : Plan} {tally later : Tally} {before : RunResult}

end Faults
end Context

def strikeAt (call : Nat) : World := fun number =>
  ⟨fun calls batch => if calls = call then (strike number).reply calls batch
    else (standstill number).reply calls batch, fun _ _ => 0⟩

theorem strikeAt_disturbs (context : Context) (providers : Providers) (call : Nat) :
    context.Disturbed providers standstill (strikeAt call) := by
  intro number _
  have answered : ∀ calls batch, ((standstill number).reply calls batch).Answers
      (fun arguments => Table.ofList [("goal", arguments.read "from")]) batch :=
    fun _ _ => objects_answer (Or.inr (Or.inr rfl))
  refine ⟨_, fun calls batch => ⟨answered calls batch, ?_⟩⟩
  by_cases here : calls = call
  · refine Or.inr ?_
    simp only [strikeAt, here, if_true]
    exact .raised _
  · refine Or.inl ?_
    simp only [strikeAt, here, if_false]
    exact answered calls batch

end WiredViews
