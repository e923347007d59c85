import WiredViews.Proofs.RunHistory
import WiredViews.Proofs.TimelyLevels
import WiredViews.Proofs.ServiceArguments

namespace WiredViews

theorem sublist_eq_filter {some all : List String} (listed : some.Sublist all) (distinct : all.Nodup) :
    some = all.filter fun name => name ∈ some := by
  induction listed with
  | slnil => rfl
  | cons first rest ih =>
    obtain ⟨fresh, distinct⟩ := List.nodup_cons.mp distinct
    rw [List.filter_cons_of_neg (by simpa using fun listed => fresh (rest.subset listed))]
    exact ih distinct
  | @cons_cons some all first rest ih =>
    obtain ⟨fresh, distinct⟩ := List.nodup_cons.mp distinct
    rw [List.filter_cons_of_pos (by simp)]
    congr 1
    refine (ih distinct).trans (List.filter_congr fun name listed => ?_)
    have differ : name ≠ first := fun same => fresh (same ▸ listed)
    simp [differ]

theorem candidates_provider_sublist {progress : Progress} {level : Level} :
    ((progress.candidates level).map Group.provider).Sublist (level.groups.map Group.provider) := by
  unfold Progress.candidates
  induction level.groups with
  | nil => simp
  | cons group rest ih =>
    rw [List.filterMap_cons, List.map_cons]
    split
    · exact ih.cons _
    · rename_i kept found
      split at found
      · cases found
      · cases found
        exact ih.cons_cons _

namespace Context
variable {context : Context} {providers : Providers} {policy : Policy}

def providerOf (context : Context) (name : String) : Option String :=
  (context.services.get? name).map Service.provider

def due (context : Context) (level : Level) (pruned : List String) (provider : String) : List String :=
  context.services.keys.filter fun name =>
    name ∈ level.names ∧ context.providerOf name = some provider ∧ name ∉ pruned

theorem levelNames_ordered {strategy : LevelStrategy} {names : List String}
    (level : names ∈ context.levelNames strategy) : names.Sublist context.services.keys := by
  obtain ⟨index, found⟩ := List.getElem?_of_mem level
  cases strategy with
  | longestPath =>
    rw [getElem?_longestPathLevels found]
    exact List.filter_sublist
  | singleHop =>
    have same := @getElem?_frontiers _ _ 0 _ _ found
    cases hops : 0 + index with
    | zero =>
      rw [same, hops, ← parents_keys]
      exact List.filter_sublist.map Prod.fst
    | succ hops =>
      rw [same, hops]
      exact List.filter_sublist

section Groups
variable {names : List String} {group : Group}

theorem group_names (grouped : group ∈ context.groupServices names) :
    group.names = names.filter fun name => context.providerOf name = some group.provider := by
  rw [groupServices_eq, List.mem_map] at grouped
  obtain ⟨provider, -, rfl⟩ := grouped
  unfold Group.names
  dsimp only
  induction names with
  | nil => rfl
  | cons name rest ih =>
    cases held : context.services.get? name with
    | none =>
      have nobody : context.entry? name = none := by
        unfold entry?
        rw [held, Option.map_none]
      have unknown : context.providerOf name = none := by simp [providerOf, held]
      rw [List.filterMap_cons_none nobody, List.filter_cons_of_neg (by simp [unknown])]
      exact ih
    | some service =>
      have entered : context.entry? name = some (service.provider, ⟨name, service.dependencies⟩) :=
        entry?_eq_some.mpr ⟨rfl, held⟩
      have owner : context.providerOf name = some service.provider := by simp [providerOf, held]
      rw [List.filterMap_cons_some entered]
      by_cases own : service.provider = provider
      · rw [List.filter_cons_of_pos (by simp [own]), List.filter_cons_of_pos (by simp [owner, own]),
          List.map_cons, List.map_cons, ih]
      · rw [List.filter_cons_of_neg (by simp [own]), List.filter_cons_of_neg (by simp [owner, own])]
        exact ih

theorem mem_level_names (declared : ∀ name ∈ names, name ∈ context.services.keys) {name : String} :
    name ∈ (context.groupServices names).flatMap Group.names ↔ name ∈ names := by
  rw [List.mem_flatMap]
  constructor
  · intro given
    obtain ⟨group, grouped, named⟩ := given
    rw [group_names grouped] at named
    exact (List.mem_filter.mp named).1
  · intro place
    obtain ⟨service, held⟩ := Table.mem_keys.mp (declared name place)
    obtain ⟨group, grouped, _, listed⟩ := groupServices_covers place held
    exact ⟨group, grouped, List.mem_map_of_mem listed⟩

end Groups

section Level
variable {count : Nat} {level : Level} {progress : Progress}
  (place : (context.plan providers policy).levels[count]? = some level)
include place

theorem level_providers : (level.groups.map Group.provider).Nodup := by
  obtain ⟨names, _, grouped⟩ := level_grouped place
  rw [grouped]
  exact groupServices_providers names

theorem group_due {group : Group} (grouped : group ∈ level.groups) :
    group.names = context.due level [] group.provider := by
  obtain ⟨names, found, same⟩ := level_grouped place
  have listed := List.mem_of_getElem? found
  have ordered := sublist_eq_filter (levelNames_ordered listed) context.services.keys_nodup
  rw [group_names (same ▸ grouped), ordered, List.filter_filter, due]
  refine List.filter_congr fun name _ => ?_
  have on_level : name ∈ level.names ↔ name ∈ names := by
    rw [Level.names, same]
    exact mem_level_names fun name => levelNames_declared listed
  simp [on_level, Bool.and_comm]

theorem candidate_due {group : Group} (candidate : group ∈ progress.candidates level) :
    group.names = context.due level progress.pruned group.provider := by
  obtain ⟨_, whole, grouped, rfl⟩ := mem_candidates.mp candidate
  have kept : Group.names ⟨whole.provider, whole.members.filter fun member => !progress.isPruned member⟩ =
      whole.names.filter fun name => name ∉ progress.pruned := by
    unfold Group.names
    rw [List.filter_map]
    refine congrArg (List.map Member.name) (List.filter_congr fun member _ => ?_)
    simp [Progress.isPruned]
  rw [kept, group_due place grouped, due, due, List.filter_filter]
  refine List.filter_congr fun name _ => ?_
  simp only [List.not_mem_nil, not_false_eq_true, and_true, Bool.decide_and]
  exact (Bool.and_comm _ _).trans (Bool.and_assoc _ _ _)

theorem due_candidate {provider : String} :
    (∃ group ∈ progress.candidates level, group.provider = provider) ↔
      context.due level progress.pruned provider ≠ [] := by
  constructor
  · intro given
    obtain ⟨group, candidate, rfl⟩ := given
    rw [← candidate_due place candidate]
    exact fun none_left => (mem_candidates.mp candidate).1 (List.map_eq_nil_iff.mp none_left)
  · intro some_due
    obtain ⟨name, listed⟩ := List.exists_mem_of_ne_nil _ some_due
    obtain ⟨_, asked⟩ := List.mem_filter.mp listed
    rw [decide_eq_true_eq] at asked
    obtain ⟨on_level, owned, left⟩ := asked
    obtain ⟨whole, grouped, named⟩ := List.mem_flatMap.mp on_level
    obtain ⟨member, inside, rfl⟩ := List.mem_map.mp named
    obtain ⟨names, _, same⟩ := level_grouped place
    obtain ⟨_, held⟩ := mem_groupServices (same ▸ grouped) inside
    simp only [providerOf, held, Option.map_some, Option.some.injEq] at owned
    have kept : member ∈ whole.members.filter fun member => !progress.isPruned member :=
      List.mem_filter.mpr ⟨inside, by simpa [Progress.isPruned] using left⟩
    exact ⟨_, mem_candidates.mpr ⟨List.ne_nil_of_mem kept, whole, grouped, rfl⟩, owned⟩

end Level

-- The callback of the provider was invoked with the batch. That of a provider whose outputs
-- only come from overrides says so and does nothing else.
inductive Invoked (providers : Providers) (world : World) (attempt : Attempt) : Prop where
  | registered {provider : Provider} {number calls : Nat}
      (held : providers.get? attempt.group.provider = some provider)
      (callback : provider.callback = .registered number) (called : attempt.called = true)
      (outcome : attempt.outcome = ((world number).reply calls attempt.batch).outcome attempt.group.provider) :
      Invoked providers world attempt
  | placeholder {provider : Provider} (held : providers.get? attempt.group.provider = some provider)
      (callback : provider.callback = .placeholder) (called : attempt.called = false)
      (outcome : attempt.outcome = .placeholder) : Invoked providers world attempt

-- The groups of a round, one for each provider that something is due for, and the batches
-- made for them when some rounds were behind.
structure LevelGroups (context : Context) (plan : Plan) (overrides : Record) (level : Level)
    (earlier : List Round) (round : Round) : Prop where
  index : round.index = level.index
  busy : round.attempts ≠ []
  once : (round.attempts.map fun attempt => attempt.group.provider).Nodup
  called : ∀ provider, (∃ attempt ∈ round.attempts, attempt.group.provider = provider) ↔
    context.due level (plan.prunedBy earlier) provider ≠ []
  services : ∀ attempt ∈ round.attempts,
    attempt.group.names = context.due level (plan.prunedBy earlier) attempt.group.provider
  batch : ∀ attempt ∈ round.attempts,
    attempt.batch = attempt.group.names.map (context.argumentsOf (plan.snapshot overrides earlier))
  order : (round.attempts.map fun attempt => attempt.group.provider).Sublist (level.groups.map Group.provider)

section Played
variable {world : World} {overrides : Record} {rounds : List Round} {index : Nat} {level : Level}
  {before : Progress} {round : Round}

theorem played_groups (timely : context.Timely providers (context.plan providers policy))
    (played : (context.plan providers policy).Played world overrides rounds index level before round) :
    context.LevelGroups (context.plan providers policy) overrides level (rounds.take index) round := by
  obtain ⟨place, _, pruned, values, busy, rfl⟩ := played
  have callees : (((context.plan providers policy).roundOf world before level).attempts.map
      fun attempt => attempt.group.provider) = (before.candidates level).map Group.provider := by
    rw [← round_groups (context.plan providers policy) world, List.map_map]
    rfl
  constructor
  case index => rfl
  case busy =>
    intro none_made
    rw [none_made, List.map_nil, eq_comm, List.map_eq_nil_iff] at callees
    exact busy callees
  case once =>
    rw [callees]
    exact (level_providers place).sublist candidates_provider_sublist
  case called =>
    intro provider
    rw [← pruned, ← due_candidate place, ← List.mem_map, callees, List.mem_map]
  case services =>
    intro attempt made
    rw [← pruned]
    exact candidate_due place (round_candidate made)
  case batch =>
    intro attempt made
    rw [← values, round_batch made, Group.names, List.map_map]
    exact group_batch_eq fun member listed => (timely.candidate place (round_candidate made) listed).1
  case order =>
    rw [callees]
    exact candidates_provider_sublist

theorem played_invoked (timely : context.Timely providers (context.plan providers policy))
    (played : (context.plan providers policy).Played world overrides rounds index level before round)
    {attempt : Attempt} (made : attempt ∈ round.attempts)
    (unrefused : ∀ error, attempt.outcome ≠ .rejected error) : Invoked providers world attempt := by
  obtain ⟨place, _, _, _, _, rfl⟩ := played
  have candidate := round_candidate made
  obtain ⟨member, listed⟩ := List.exists_mem_of_ne_nil _ (mem_candidates.mp candidate).1
  obtain ⟨provider, held⟩ := Table.mem_keys.mp
    (timely.known _ (Table.get?_eq_some.mp (timely.candidate place candidate listed).1))
  have happened : Attempted world (providers.getD attempt.group.provider systemProvider) before.values attempt :=
    round_attempted made
  rw [Table.getD_of_get? held] at happened
  clear made
  cases happened with
  | refused _ => exact absurd rfl (unrefused _)
  | idle _ nobody => exact .placeholder held nobody rfl rfl
  | called _ registered => exact .registered held registered rfl rfl

end Played

section Runs
variable {world : World} {overrides : Record} {tally : Tally}
  (timely : context.Timely providers (context.plan providers policy))
include timely

theorem run_groups {index : Nat} {round : Round}
    (listed : ((context.plan providers policy).run world overrides tally).progress.rounds[index]? = some round) :
    ∃ level : Level, (context.plan providers policy).levels[index]? = some level ∧ level.index = index ∧
      context.LevelGroups (context.plan providers policy) overrides level
        (((context.plan providers policy).run world overrides tally).progress.rounds.take index) round := by
  obtain ⟨level, _, played⟩ := run_played listed
  exact ⟨level, played.place, level_index played.place, played_groups timely played⟩

theorem run_invoked {attempt : Attempt}
    (made : attempt ∈ ((context.plan providers policy).run world overrides tally).progress.attempts)
    (unrefused : ∀ error, attempt.outcome ≠ .rejected error) : Invoked providers world attempt := by
  obtain ⟨round, member, inside⟩ := List.mem_flatMap.mp made
  obtain ⟨_, _, _, played⟩ := run_played_mem member
  exact played_invoked timely played inside unrefused

end Runs
end Context
end WiredViews
