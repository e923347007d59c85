import Mathlib.Tactic.Choose
import WiredViews.Proofs.Dataflow
import WiredViews.Proofs.ValueEquations

-- The strategies differ in when services are called and how often. Where providers answer
-- entry by entry, the values do not show it.
namespace WiredViews

def Progress.Whole (progress : Progress) : Prop :=
  progress.failed = [] ∧ progress.pruned = []

theorem whole_pass {plan : Plan} {world : World} {overrides : Record} {progress : Progress} {level : Level}
    (before : progress.Whole)
    (unfailed : ∀ attempt ∈ (plan.roundOf world progress level).attempts, ∀ failure,
      attempt.outcome ≠ .failed failure) : (plan.pass world overrides progress level).Whole := by
  unfold Progress.Whole
  rw [pass_failed, pass_pruned, before.1, before.2, List.nil_append, List.nil_append,
    List.flatMap_eq_nil_iff, List.flatMap_eq_nil_iff]
  constructor
  · intro attempt made
    unfold Attempt.failedNames
    split
    · rename_i failure failed
      exact absurd failed (unfailed attempt made failure)
    · rfl
  · intro attempt made
    unfold Plan.givenUp
    split
    · rename_i failure failed
      exact absurd failed (unfailed attempt made failure)
    · rfl

namespace Context
variable {context : Context} {providers : Providers} {policy : Policy} {world : World}
  {answers : Nat → Record → Record} {overrides : Record}

theorem Pure.reliable (pure : context.Pure providers world) :
    ∃ answers, context.Reliable providers answers world := by
  choose! answers answered using pure
  exact ⟨answers, answered⟩

theorem round_unfailed {count : Nat} {level : Level} {progress : Progress}
    (reliable : context.Reliable providers answers world)
    (timely : context.Timely providers (context.plan providers policy))
    (place : (context.plan providers policy).levels[count]? = some level) {attempt : Attempt}
    (made : attempt ∈ ((context.plan providers policy).roundOf world progress level).attempts)
    (failure : ProviderFailure) : attempt.outcome ≠ .failed failure := by
  have candidate := round_candidate made
  have happened := round_attempted made
  clear made
  cases happened with
  | refused _ => nofun
  | idle _ _ => nofun
  | @called group number calls _ registered =>
    have answered := reliable number (candidate_uses timely place candidate registered) calls
      (group.batch progress.values)
    rw [outcome_answers answered]
    nofun

section Returned
variable {plan : Plan} {tally : Tally} {result : RunResult}

theorem reliable_solves (accepted : Plan.build context providers policy = .ok plan)
    (reliable : context.Reliable providers answers world)
    (returned : (plan.run world overrides tally).result = .ok result) :
    context.Solves providers answers overrides (fun _ => True) result.values ∧
      (∀ name ∈ context.services.keys, context.refusal? providers result.values name = none) ∧
      result.failed = [] := by
  obtain ⟨rfl, timely⟩ := build_timely accepted
  obtain ⟨count, progress, ⟨accounted, whole⟩, reached⟩ := @run_invariant _ _ _ _ _
    (fun count progress => context.Accounted providers answers overrides count progress ∧ progress.Whole)
    returned ⟨accounted_start tally, rfl, rfl⟩ fun count progress level place before calm =>
      ⟨accounted_pass reliable.serves timely place before.1 calm,
        whole_pass before.2 fun attempt made => round_unfailed reliable timely place made⟩
  have behind : ∀ name ∈ context.services.keys, context.rankOf name < count :=
    fun name known => timely.all_behind reached whole.2 known
  rw [reached.values, reached.failed, whole.1]
  refine ⟨?_, ?_, rfl⟩
  · intro name _
    refine accounted.solved name fun free service field bound => ?_
    have low := behind service (timely.declared name service field bound)
    exact ⟨low, by simp [whole.1], by simp [whole.2]⟩
  · exact fun name known => accounted.fit name known (behind name known) (by simp [whole.2])

theorem strategies_agree {other : Policy} {twin : Plan} {later : Tally} {outcome : RunResult}
    (accepted : Plan.build context providers policy = .ok plan)
    (reaccepted : Plan.build context providers other = .ok twin) (pure : context.Pure providers world)
    (returned : (plan.run world overrides tally).result = .ok result)
    (rereturned : (twin.run world overrides later).result = .ok outcome) (name : String) :
    result.values.get? name = outcome.values.get? name := by
  obtain ⟨answers, reliable⟩ := pure.reliable
  exact solutions_agree (build_timely accepted).2.settled (fun _ _ _ _ => trivial)
    (reliable_solves accepted reliable returned).1 (reliable_solves reaccepted reliable rereturned).1
    fun _ _ _ _ => trivial

end Returned
end Context

def layover : Context where
  bindings := Table.ofList [("start", .constant "Oslo"), ("stop", .reference "out" "goal"),
    ("end", .reference "back" "goal"), ("last", .reference "on" "goal")]
  services := Table.ofList [("out", ⟨"Trip", [⟨"from", "start"⟩]⟩), ("back", ⟨"Trip", [⟨"from", "stop"⟩]⟩),
    ("on", ⟨"Trip", [⟨"via", "stop"⟩, ⟨"from", "end"⟩]⟩)]

theorem standstill_pure (context : Context) (providers : Providers) : context.Pure providers standstill :=
  fun _ _ => ⟨fun arguments => Table.ofList [("goal", arguments.read "from")],
    fun _ _ => objects_answer (Or.inr (Or.inr rfl))⟩

theorem layover_agrees : ∃ hopped waited,
    ((layover.plan railway ⟨.singleHop, .transitive, true⟩).run standstill ∅ .none).result = .ok hopped ∧
    ((layover.plan railway .standard).run standstill ∅ .none).result = .ok waited ∧
    ((layover.plan railway ⟨.singleHop, .transitive, true⟩).run standstill ∅ .none).progress.attempts.map
      (fun attempt => attempt.group.names) = [["out"], ["back", "on"], ["on"]] ∧
    ∀ name, hopped.values.get? name = waited.values.get? name := by
  obtain ⟨hopped, returned⟩ : ∃ hopped,
      ((layover.plan railway ⟨.singleHop, .transitive, true⟩).run standstill ∅ .none).result = .ok hopped :=
    ⟨_, rfl⟩
  obtain ⟨waited, rereturned⟩ : ∃ waited,
      ((layover.plan railway .standard).run standstill ∅ .none).result = .ok waited := ⟨_, rfl⟩
  refine ⟨hopped, waited, returned, rereturned, by decide +kernel, ?_⟩
  exact Context.strategies_agree
    (show Plan.build layover railway ⟨.singleHop, .transitive, true⟩ = .ok _ from rfl)
    (show Plan.build layover railway .standard = .ok _ from rfl) (standstill_pure _ _) returned rereturned

end WiredViews
