import WiredViews.Proofs.CascadeReach
import WiredViews.Proofs.Dataflow

-- How far the failure of a service reaches when it is passed on to all that wait for
-- it: to its descendants, and to nothing else.
namespace WiredViews

def Progress.Batched (progress : Progress) (name : String) : Prop :=
  ∃ attempt ∈ progress.attempts, name ∈ attempt.group.names ∧ ∀ error, attempt.outcome ≠ .rejected error

def Plan.Cut (plan : Plan) (failed : List String) (name : String) : Prop :=
  ∃ source ∈ failed, ChildTable.Descends plan.children source name

theorem mem_givenUp {plan : Plan} {attempts : List Attempt} {name : String} :
    name ∈ attempts.flatMap plan.givenUp ↔ ∃ source ∈ attempts.flatMap Attempt.failedNames,
      ChildTable.Loses plan.children plan.policy.cascade source name := by
  have single : ∀ attempt : Attempt, name ∈ plan.givenUp attempt ↔
      ∃ source ∈ attempt.failedNames, ChildTable.Loses plan.children plan.policy.cascade source name := by
    intro attempt
    unfold Plan.givenUp Attempt.failedNames Plan.dependents
    cases attempt.outcome with
    | failed failure => exact ChildTable.mem_dependents
    | resolved | placeholder | rejected | mistyped => simp
  simp only [List.mem_flatMap, single]
  constructor
  · intro given
    obtain ⟨attempt, made, source, listed, lost⟩ := given
    exact ⟨source, ⟨attempt, made, listed⟩, lost⟩
  · intro given
    obtain ⟨source, ⟨attempt, made, listed⟩, lost⟩ := given
    exact ⟨attempt, made, source, listed, lost⟩

theorem cut_append {plan : Plan} {first second : List String} {name : String} :
    plan.Cut (first ++ second) name ↔ plan.Cut first name ∨ plan.Cut second name := by
  unfold Plan.Cut
  simp only [List.mem_append, or_and_right, exists_or]

theorem batched_append {plan : Plan} {world : World} {overrides : Record} {progress : Progress} {level : Level}
    {name : String} (calm : (plan.roundOf world progress level).fatal? = none) :
    (plan.pass world overrides progress level).Batched name ↔
      progress.Batched name ∨ ∃ group ∈ progress.candidates level, name ∈ group.names := by
  unfold Progress.Batched
  rw [pass_attempts]
  simp only [List.mem_append, or_and_right, exists_or]
  refine or_congr_right ?_
  constructor
  · intro given
    obtain ⟨attempt, made, named, _⟩ := given
    exact ⟨attempt.group, round_candidate made, named⟩
  · intro given
    obtain ⟨group, candidate, named⟩ := given
    rw [← round_groups plan world] at candidate
    obtain ⟨attempt, made, rfl⟩ := List.mem_map.mp candidate
    exact ⟨attempt, made, named, calm_not_rejected calm made⟩

theorem Run.Reaches.batched {run : Run} {plan : Plan} {result : RunResult} {count : Nat} {progress : Progress}
    (reached : run.Reaches plan result count progress) {name : String} :
    run.progress.Batched name ↔ progress.Batched name := by
  rw [Progress.Batched, reached.attempts, Progress.Batched]

namespace Context
variable {context : Context} {providers : Providers} {policy : Policy} {world : World} {overrides : Record}

theorem plan_child (declared : context.Declared) :
    ChildTable.Child (context.plan providers policy).children = context.Feeds := by
  funext parent child
  apply propext
  constructor
  · intro kid
    exact (mem_childrenOf.mp kid).2
  · intro feeds
    exact mem_childrenOf.mpr ⟨feeds_parent declared feeds, feeds⟩

theorem cut_iff (declared : context.Declared) {failed : List String} {name : String} :
    (context.plan providers policy).Cut failed name ↔ ∃ source ∈ failed, context.Ancestor source name := by
  unfold Plan.Cut ChildTable.Descends Ancestor
  rw [plan_child declared]

theorem cut_child (declared : context.Declared) {failed : List String} {parent child : String}
    (cut : (context.plan providers policy).Cut failed parent) (feeds : context.Feeds parent child) :
    (context.plan providers policy).Cut failed child := by
  rw [cut_iff declared] at cut ⊢
  obtain ⟨source, listed, chain⟩ := cut
  exact ⟨source, listed, chain.tail feeds⟩

theorem cut_above (layered : context.Layered providers policy) {failed : List String} {count : Nat}
    (ranked : ∀ source ∈ failed, context.rankOf source = count) {name : String}
    (cut : (context.plan providers policy).Cut failed name) : count < context.rankOf name := by
  obtain ⟨source, listed, chain⟩ := (cut_iff layered.declared).mp cut
  have higher := rank_lt_of_ancestor layered.settled chain
  have rank := ranked source listed
  omega

structure Contained (context : Context) (plan : Plan) (overrides : Record) (count : Nat)
    (progress : Progress) : Prop where
  pruned : ∀ name, name ∈ progress.pruned ↔ plan.Cut progress.failed name
  failed : ∀ name ∈ progress.failed, name ∈ context.services.keys ∧ context.rankOf name < count ∧
    name ∉ progress.pruned
  batched : ∀ name, progress.Batched name ↔
    name ∈ context.services.keys ∧ context.rankOf name < count ∧ name ∉ progress.pruned
  filled : ∀ name service field, context.bindings.get? name = some (.reference service field) →
    name ∉ overrides.keys → name ∈ progress.values.keys →
    context.rankOf service < count ∧ service ∉ progress.failed ∧ service ∉ progress.pruned

theorem contained_start (tally : Tally) :
    context.Contained (context.plan providers policy) overrides 0
      (.start (context.plan providers policy) overrides tally) := by
  constructor
  case pruned => simp [Progress.start, Plan.Cut]
  case failed => simp [Progress.start]
  case batched => simp [Progress.start, Progress.Batched, Progress.attempts]
  case filled =>
    intro name service field bound free held
    simp only [Progress.start, Table.mem_keys_insertAll] at held
    rcases held with overridden | constant | nothing
    · exact absurd overridden free
    · rw [List.map_map] at constant
      obtain ⟨row, listed, rfl⟩ := List.mem_map.mp constant
      have found : context.constants.get? row.1 = some row.2 := Table.get?_eq_some.mpr listed
      rw [get?_constants] at found
      simp [found] at bound
    · simp [Table.mem_keys] at nothing

section Step
variable {count : Nat} {level : Level} {progress : Progress}

theorem round_failed (layered : context.Layered providers policy)
    (place : (context.plan providers policy).levels[count]? = some level) {name : String}
    (listed : name ∈ ((context.plan providers policy).roundOf world progress level).attempts.flatMap
      Attempt.failedNames) :
    name ∈ context.services.keys ∧ context.rankOf name = count ∧ name ∉ progress.pruned := by
  obtain ⟨attempt, made, _, named⟩ := mem_failedNames.mp listed
  obtain ⟨member, grouped, rfl⟩ := List.mem_map.mp named
  obtain ⟨held, facts⟩ := candidate_member layered place (round_candidate made) grouped
  exact ⟨Table.mem_keys.mpr ⟨_, held⟩, facts⟩

theorem answer_not_failed (layered : context.Layered providers policy)
    (place : (context.plan providers policy).levels[count]? = some level) {answer : Member × Record}
    (answered : answer ∈ ((context.plan providers policy).roundOf world progress level).attempts.flatMap
      Attempt.answers) :
    answer.1.name ∉ ((context.plan providers policy).roundOf world progress level).attempts.flatMap
      Attempt.failedNames := by
  intro listed
  obtain ⟨attempt, made, found⟩ := List.mem_flatMap.mp answered
  obtain ⟨records, resolved, zipped⟩ := mem_answers.mp found
  obtain ⟨other, remade, ⟨failure, failed⟩, named⟩ := mem_failedNames.mp listed
  have same : attempt = other :=
    layered.timely.round_apart place made remade (List.mem_map_of_mem (List.of_mem_zip zipped).1) named
  rw [same, failed] at resolved
  cases resolved

theorem spared_pass (layered : context.Layered providers policy)
    (place : (context.plan providers policy).levels[count]? = some level) {name : String}
    (low : context.rankOf name ≤ count) (spared : name ∉ progress.pruned) :
    name ∉ ((context.plan providers policy).pass world overrides progress level).pruned := by
  rw [pass_pruned]
  refine List.not_mem_append spared fun late => ?_
  obtain ⟨source, failed, lost⟩ := mem_givenUp.mp late
  have higher := cut_above layered (fun source failed => (round_failed layered place failed).2.1)
    ⟨source, failed, lost.descends⟩
  omega

theorem batched_pass (layered : context.Layered providers policy)
    (place : (context.plan providers policy).levels[count]? = some level)
    (before : ∀ name, progress.Batched name ↔
      name ∈ context.services.keys ∧ context.rankOf name < count ∧ name ∉ progress.pruned)
    (calm : ((context.plan providers policy).roundOf world progress level).fatal? = none) (name : String) :
    ((context.plan providers policy).pass world overrides progress level).Batched name ↔
      name ∈ context.services.keys ∧ context.rankOf name < count + 1 ∧
        name ∉ ((context.plan providers policy).pass world overrides progress level).pruned := by
  rw [batched_append calm, before]
  constructor
  · intro given
    rcases given with ⟨known, rank, spared⟩ | ⟨group, candidate, named⟩
    · exact ⟨known, by omega, spared_pass layered place (by omega) spared⟩
    · obtain ⟨member, listed, rfl⟩ := List.mem_map.mp named
      obtain ⟨held, rank, spared⟩ := candidate_member layered place candidate listed
      exact ⟨Table.mem_keys.mpr ⟨_, held⟩, by omega, spared_pass layered place (by omega) spared⟩
  · intro given
    obtain ⟨known, rank, spared⟩ := given
    have left : name ∉ progress.pruned := by
      rw [pass_pruned] at spared
      exact fun early => spared (List.mem_append_left _ early)
    by_cases top : context.rankOf name = count
    · exact Or.inr (candidate_covers layered place known top left)
    · exact Or.inl ⟨known, by omega, left⟩

theorem Contained.filled_pass (layered : context.Layered providers policy)
    (place : (context.plan providers policy).levels[count]? = some level)
    (before : context.Contained (context.plan providers policy) overrides count progress)
    {name service field : String} (bound : context.bindings.get? name = some (.reference service field))
    (free : name ∉ overrides.keys)
    (held : name ∈ ((context.plan providers policy).pass world overrides progress level).values.keys) :
    context.rankOf service < count + 1 ∧
      service ∉ ((context.plan providers policy).pass world overrides progress level).failed ∧
      service ∉ ((context.plan providers policy).pass world overrides progress level).pruned := by
  rw [pass_failed]
  rw [pass_values, Table.mem_keys_insertAll] at held
  rcases held with new | old
  · obtain ⟨⟨_, value⟩, written, rfl⟩ := List.mem_map.mp new
    obtain ⟨_, answer, answered, _, rebound, _⟩ := mem_writes.mp written
    rw [bound] at rebound
    simp only [Option.some.injEq, Variable.reference.injEq] at rebound
    obtain ⟨attempt, made, listed⟩ := answer_member answered
    obtain ⟨_, rank, spared⟩ := candidate_member layered place (round_candidate made) listed
    rw [rebound.1]
    refine ⟨by omega, List.not_mem_append (fun early => ?_) (answer_not_failed layered place answered),
      spared_pass layered place (by omega) spared⟩
    have lower := (before.failed _ early).2.1
    omega
  · obtain ⟨rank, spared, kept⟩ := before.filled name service field bound free old
    refine ⟨by omega, List.not_mem_append spared fun late => ?_,
      spared_pass layered place (by omega) kept⟩
    have equal := (round_failed layered place late).2.1
    omega

theorem contained_pass (layered : context.Layered providers policy) (transitive : policy.cascade = .transitive)
    (place : (context.plan providers policy).levels[count]? = some level)
    (before : context.Contained (context.plan providers policy) overrides count progress)
    (calm : ((context.plan providers policy).roundOf world progress level).fatal? = none) :
    context.Contained (context.plan providers policy) overrides (count + 1)
      ((context.plan providers policy).pass world overrides progress level) := by
  constructor
  case pruned =>
    intro name
    have cascade : (context.plan providers policy).policy.cascade = .transitive := transitive
    rw [pass_pruned, pass_failed, List.mem_append, cut_append, before.pruned, mem_givenUp, cascade]
    rfl
  case failed =>
    rw [pass_failed]
    intro name listed
    rcases List.mem_append.mp listed with old | new
    · obtain ⟨known, rank, spared⟩ := before.failed name old
      exact ⟨known, by omega, spared_pass layered place (by omega) spared⟩
    · obtain ⟨known, rank, spared⟩ := round_failed layered place new
      exact ⟨known, by omega, spared_pass layered place (by omega) spared⟩
  case batched => exact batched_pass layered place before.batched calm
  case filled =>
    intro name service field bound free held
    exact before.filled_pass layered place bound free held

end Step

section Returned
variable {run : Run} {result : RunResult} {count : Nat} {progress : Progress}

theorem next_pruned (layered : context.Layered providers policy)
    (reached : run.Reaches (context.plan providers policy) result count progress)
    {name : String} (known : name ∈ context.services.keys) (rank : context.rankOf name = count) :
    name ∈ progress.pruned := by
  rcases reached.ended with ⟨past, _⟩ | ⟨level, place, idle, _⟩
  · rw [levels_length layered.longest] at past
    have within := rank_lt_levels layered.settled known
    omega
  · by_contra left
    obtain ⟨group, candidate, _⟩ := candidate_covers layered place known rank left
    simp [idle] at candidate

-- If nothing is left of one level, nothing is left of any level above it: a service there
-- has a parent on the level below.
theorem Contained.beyond (layered : context.Layered providers policy)
    (contained : context.Contained (context.plan providers policy) overrides count progress)
    (reached : run.Reaches (context.plan providers policy) result count progress)
    {name : String} (known : name ∈ context.services.keys) (above : count ≤ context.rankOf name) :
    name ∈ progress.pruned := by
  induction height : context.rankOf name - count generalizing name with
  | zero => exact next_pruned layered reached known (by omega)
  | succ below ih =>
    rcases context.rank_attained name with zero | ⟨parent, feeds, equal⟩
    · omega
    · have early := ih (feeds_parent layered.declared feeds) (by omega) (by omega)
      rw [contained.pruned] at early ⊢
      exact cut_child layered.declared early feeds

theorem Contained.batched_end (layered : context.Layered providers policy)
    (contained : context.Contained (context.plan providers policy) overrides count progress)
    (reached : run.Reaches (context.plan providers policy) result count progress) (name : String) :
    progress.Batched name ↔ name ∈ context.services.keys ∧ name ∉ progress.pruned := by
  rw [contained.batched]
  constructor
  · intro given
    obtain ⟨known, _, spared⟩ := given
    exact ⟨known, spared⟩
  · intro given
    obtain ⟨known, spared⟩ := given
    refine ⟨known, ?_, spared⟩
    by_contra above
    exact spared (contained.beyond layered reached known (Nat.le_of_not_lt above))

theorem Contained.stopped_end (layered : context.Layered providers policy)
    (contained : context.Contained (context.plan providers policy) overrides count progress)
    (reached : run.Reaches (context.plan providers policy) result count progress) {index : Nat}
    (stopped : run.ending = .stopped index) {level : Level}
    (listed : level ∈ (context.plan providers policy).levels) (later : index ≤ level.index) {name : String}
    (named : name ∈ level.names) : name ∈ progress.pruned := by
  obtain ⟨known, rank⟩ := (mem_level_iff layered listed).mp named
  refine contained.beyond layered reached known ?_
  rcases reached.ended with ⟨_, completed⟩ | ⟨last, lastPlace, _, ending⟩
  · rw [completed] at stopped
    cases stopped
  · rw [ending] at stopped
    cases stopped
    have last_index := level_index lastPlace
    omega

end Returned

structure FailuresContained (context : Context) (plan : Plan) (overrides : Record) (run : Run)
    (result : RunResult) : Prop where
  batched : ∀ name, run.progress.Batched name ↔ name ∈ context.services.keys ∧ ¬ plan.Cut result.failed name
  apart : ∀ name ∈ result.failed, ¬ plan.Cut result.failed name
  unfilled : ∀ name service field, context.bindings.get? name = some (.reference service field) →
    service ∈ result.failed ∨ plan.Cut result.failed service → name ∉ overrides.keys →
    name ∉ result.values.keys
  stopped : ∀ index, run.ending = .stopped index → ∀ level ∈ plan.levels, index ≤ level.index →
    ∀ name ∈ level.names, plan.Cut result.failed name

theorem run_contains {plan : Plan} {tally : Tally} {result : RunResult}
    (accepted : Plan.build context providers policy = .ok plan) (longest : policy.levels = .longestPath)
    (transitive : policy.cascade = .transitive)
    (returned : (plan.run world overrides tally).result = .ok result) :
    context.FailuresContained plan overrides (plan.run world overrides tally) result := by
  obtain ⟨rfl, layered⟩ := build_layered accepted longest
  obtain ⟨count, progress, contained, reached⟩ := run_invariant returned (contained_start tally)
    fun count progress level place before calm => contained_pass layered transitive place before calm
  have failed : ∀ name, name ∈ result.failed ↔ name ∈ progress.failed := by
    rw [reached.failed]
    exact fun name => mem_distinct
  have cut : ∀ name, (context.plan providers policy).Cut result.failed name ↔ name ∈ progress.pruned := by
    intro name
    simp only [contained.pruned, Plan.Cut, failed]
  constructor
  case batched =>
    intro name
    rw [reached.batched, cut]
    exact contained.batched_end layered reached name
  case apart =>
    intro name listed
    rw [cut]
    exact (contained.failed name ((failed name).mp listed)).2.2
  case unfilled =>
    intro name service field bound lost free held
    rw [reached.values] at held
    obtain ⟨_, spared, kept⟩ := contained.filled name service field bound free held
    rw [failed, cut] at lost
    exact lost.elim spared kept
  case stopped =>
    intro index stopped level listed later name named
    rw [cut]
    exact contained.stopped_end layered reached stopped listed later named

end Context

def strike : World := fun _ =>
  ⟨fun _ _ => .raised (.failure (.other "Strike" "no trains")), fun _ _ => 0⟩

theorem roundTrip_cut : ∃ result,
    ((roundTrip.plan railway .standard).run strike ∅ .none).result = .ok result ∧
    result.failed = ["out"] ∧ result.skipped = ["back"] ∧
    roundTrip.FailuresContained (roundTrip.plan railway .standard) ∅
      ((roundTrip.plan railway .standard).run strike ∅ .none) result := by
  have returned : ((roundTrip.plan railway .standard).run strike ∅ .none).result =
      .ok ((roundTrip.plan railway .standard).run strike ∅ .none).progress.result := by
    with_unfolding_all rfl
  refine ⟨_, returned, by with_unfolding_all rfl, by with_unfolding_all rfl, ?_⟩
  exact Context.run_contains (show Plan.build roundTrip railway .standard = .ok _ from rfl) rfl rfl returned

end WiredViews
