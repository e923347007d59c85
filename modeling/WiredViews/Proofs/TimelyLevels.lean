import Mathlib.Data.List.Pairwise
import WiredViews.Proofs.LevelPasses
import WiredViews.Proofs.WiringVerdict

-- What the two strategies have in common: every service has its last turn on the level of
-- its rank, when all that feed it have had theirs.
namespace WiredViews
theorem attempts_apart {attempts : List Attempt}
    (once : (attempts.flatMap fun attempt => attempt.group.names).Nodup) {attempt other : Attempt}
    (made : attempt ∈ attempts) (remade : other ∈ attempts) {name : String} (named : name ∈ attempt.group.names)
    (renamed : name ∈ other.group.names) : attempt = other := by
  have apart := (List.nodup_flatMap.mp once).2
  have symmetric : Std.Symm (Function.onFun List.Disjoint fun attempt : Attempt => attempt.group.names) :=
    ⟨fun _ _ disjoint => disjoint.symm⟩
  by_contra differ
  exact apart.forall made remade differ named renamed

namespace Context
variable {context : Context} {providers : Providers} {policy : Policy} {plan : Plan}

-- A service may have been on lower levels before. There it is called with what happens to
-- be known by then.
structure Timely (context : Context) (providers : Providers) (plan : Plan) : Prop where
  known : context.ProvidersKnown providers
  declared : context.Declared
  settled : context.unresolved = []
  placed : ∀ (count : Nat) (level : Level), plan.levels[count]? = some level → ∀ group ∈ level.groups, ∀ member ∈ group.members,
    context.services.get? member.name = some ⟨group.provider, member.dependencies⟩ ∧
      count ≤ context.rankOf member.name
  covered : ∀ name ∈ context.services.keys, ∃ level : Level, plan.levels[context.rankOf name]? = some level ∧
    ∃ group ∈ level.groups, ∃ member ∈ group.members, member.name = name
  once : ∀ (count : Nat) (level : Level), plan.levels[count]? = some level → level.names.Nodup

section Building
variable {count : Nat} {level : Level}

theorem level_grouped (place : (context.plan providers policy).levels[count]? = some level) :
    ∃ names, (context.levelNames policy.levels)[count]? = some names ∧
      level.groups = context.groupServices names := by
  unfold plan at place
  rw [List.getElem?_mapIdx, Option.map_eq_some_iff] at place
  obtain ⟨names, found, rfl⟩ := place
  exact ⟨names, found, rfl⟩

theorem grouped_level {names : List String} (found : (context.levelNames policy.levels)[count]? = some names) :
    (context.plan providers policy).levels[count]? = some ⟨count, context.groupServices names⟩ := by
  unfold plan
  rw [List.getElem?_mapIdx, found]
  rfl

theorem levelNames_ranks (settled : context.unresolved = []) {strategy : LevelStrategy} {names : List String}
    (found : (context.levelNames strategy)[count]? = some names) :
    names.Nodup ∧ ∀ name ∈ names, count ≤ context.rankOf name := by
  cases strategy with
  | longestPath =>
    refine ⟨?_, fun name member => Nat.le_of_eq ((mem_level settled found).mp member).2.symm⟩
    rw [getElem?_longestPathLevels found]
    exact context.services.keys_nodup.filter _
  | singleHop =>
    have same := @getElem?_frontiers _ _ 0 _ _ found
    rw [Nat.zero_add] at same
    subst same
    exact ⟨nodup_frontier count, fun name member => hops_le_rank settled member⟩

theorem levelNames_rank (declared : context.Declared) (settled : context.unresolved = [])
    (strategy : LevelStrategy) {name : String} (known : name ∈ context.services.keys) :
    ∃ names, (context.levelNames strategy)[context.rankOf name]? = some names ∧ name ∈ names := by
  cases strategy with
  | longestPath =>
    have found := List.getElem?_eq_getElem (rank_lt_levels settled known)
    exact ⟨_, found, (mem_level settled found).mpr ⟨known, rfl⟩⟩
  | singleHop =>
    exact ⟨_, level_of_rank declared settled known, mem_frontier_rank declared settled known⟩

theorem level_index (place : (context.plan providers policy).levels[count]? = some level) :
    level.index = count := by
  unfold plan at place
  rw [List.getElem?_mapIdx, Option.map_eq_some_iff] at place
  obtain ⟨_, _, rfl⟩ := place
  rfl

theorem level_within (listed : level ∈ (context.plan providers policy).levels) :
    level.index < (context.plan providers policy).levels.length := by
  obtain ⟨place, found⟩ := List.getElem?_of_mem listed
  rw [level_index found]
  exact (List.getElem?_eq_some_iff.mp found).1

theorem plan_timely (known : context.ProvidersKnown providers) (declared : context.Declared)
    (settled : context.unresolved = []) : context.Timely providers (context.plan providers policy) := by
  refine ⟨known, declared, settled, ?_, ?_, ?_⟩
  · intro count level place group grouped member listed
    obtain ⟨names, found, same⟩ := level_grouped place
    obtain ⟨inside, held⟩ := mem_groupServices (same ▸ grouped) listed
    exact ⟨held, (levelNames_ranks settled found).2 _ inside⟩
  · intro name member
    obtain ⟨names, found, inside⟩ := levelNames_rank declared settled policy.levels member
    obtain ⟨service, held⟩ := Table.mem_keys.mp member
    obtain ⟨group, grouped, _, listed⟩ := groupServices_covers inside held
    exact ⟨_, grouped_level found, group, grouped, _, listed, rfl⟩
  · intro count level place
    obtain ⟨names, found, same⟩ := level_grouped place
    unfold Level.names
    rw [same]
    exact groupServices_names_nodup (levelNames_ranks settled found).1

theorem build_timely (accepted : Plan.build context providers policy = .ok plan) :
    plan = context.plan providers policy ∧ context.Timely providers plan := by
  have verdict : Verdict context providers policy (.ok plan) := accepted ▸ build_verdict
  cases verdict with
  | planned known declared wired acyclic =>
    exact ⟨rfl, plan_timely known declared ((unresolved_eq_nil declared).mpr acyclic)⟩

end Building

section Rounds
variable {count : Nat} {level : Level} {progress : Progress} {world : World}

theorem Timely.candidate (timely : context.Timely providers plan) (place : plan.levels[count]? = some level)
    {group : Group} {member : Member} (candidate : group ∈ progress.candidates level)
    (listed : member ∈ group.members) :
    context.services.get? member.name = some ⟨group.provider, member.dependencies⟩ ∧
      count ≤ context.rankOf member.name ∧ member.name ∉ progress.pruned := by
  obtain ⟨_, whole, grouped, rfl⟩ := mem_candidates.mp candidate
  obtain ⟨kept, left⟩ := List.mem_filter.mp listed
  obtain ⟨held, rank⟩ := timely.placed count level place whole grouped member kept
  exact ⟨held, rank, by simpa [Progress.isPruned] using left⟩

theorem Timely.last_turn (timely : context.Timely providers plan) (place : plan.levels[count]? = some level)
    {name : String} (known : name ∈ context.services.keys) (rank : context.rankOf name = count)
    (left : name ∉ progress.pruned) :
    ∃ group ∈ progress.candidates level, ∃ member ∈ group.members, member.name = name := by
  obtain ⟨there, found, group, grouped, member, listed, rfl⟩ := timely.covered name known
  rw [rank, place] at found
  cases found
  have kept : member ∈ group.members.filter fun member => !progress.isPruned member :=
    List.mem_filter.mpr ⟨listed, by simpa [Progress.isPruned] using left⟩
  exact ⟨_, mem_candidates.mpr ⟨List.ne_nil_of_mem kept, group, grouped, rfl⟩, member, kept, rfl⟩

theorem Timely.round_once (timely : context.Timely providers plan) (place : plan.levels[count]? = some level) :
    ((plan.roundOf world progress level).attempts.flatMap fun attempt => attempt.group.names).Nodup := by
  rw [round_names]
  exact (timely.once count level place).sublist candidates_names

theorem Timely.round_apart (timely : context.Timely providers plan) (place : plan.levels[count]? = some level)
    {attempt other : Attempt} (made : attempt ∈ (plan.roundOf world progress level).attempts)
    (remade : other ∈ (plan.roundOf world progress level).attempts) {name : String}
    (named : name ∈ attempt.group.names) (renamed : name ∈ other.group.names) : attempt = other :=
  attempts_apart (timely.round_once place) made remade named renamed

theorem Timely.all_behind (timely : context.Timely providers plan) {run : Run} {result : RunResult}
    (reached : run.Reaches plan result count progress) (whole : progress.pruned = []) {name : String}
    (known : name ∈ context.services.keys) : context.rankOf name < count := by
  by_contra above
  obtain ⟨other, member, rank⟩ := rank_filled timely.declared known (Nat.le_of_not_lt above)
  rcases reached.ended with ⟨past, _⟩ | ⟨level, place, idle, _⟩
  · obtain ⟨level, place, _⟩ := timely.covered other member
    have within := (List.getElem?_eq_some_iff.mp place).1
    omega
  · have left : other ∉ progress.pruned := by simp [whole]
    obtain ⟨group, candidate, _⟩ := timely.last_turn place member rank left
    simp [idle] at candidate

end Rounds

end Context
end WiredViews
