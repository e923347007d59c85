import Mathlib.Data.Nat.Find
import WiredViews.Proofs.LongestChains

namespace WiredViews

def Plan.Places (plan : Plan) (count : Nat) (name : String) : Prop :=
  ∃ level : Level, plan.levels[count]? = some level ∧ name ∈ level.names

namespace Context
variable {context : Context} {providers : Providers} {policy : Policy} {plan : Plan} {name : String}

def Root (context : Context) (name : String) : Prop :=
  name ∈ context.services.keys ∧ ∀ parent, ¬ context.Feeds parent name

inductive Hops (context : Context) (source : String) : Nat → String → Prop where
  | here : Hops context source 0 source
  | step {count : Nat} {parent child : String} (path : Hops context source count parent)
      (feeds : context.Feeds parent child) : Hops context source (count + 1) child

-- Some root is so many hops away. A service can be at several distances.
def Away (context : Context) (name : String) (count : Nat) : Prop :=
  ∃ root, context.Root root ∧ context.Hops root count name

theorem root_iff : context.Root name ↔ name ∈ context.roots := by
  rw [mem_roots, Root, List.eq_nil_iff_forall_not_mem]
  simp only [mem_parentsOf]

theorem mem_frontierAfter (declared : context.Declared) {count : Nat} :
    name ∈ context.frontierAfter count ↔ context.Away name count := by
  induction count generalizing name with
  | zero =>
    constructor
    · intro member
      exact ⟨name, root_iff.mpr member, .here⟩
    · intro given
      obtain ⟨root, first, path⟩ := given
      cases path
      exact root_iff.mp first
  | succ count ih =>
    constructor
    · intro member
      obtain ⟨parent, earlier, _, feeds⟩ := mem_nextFrontier.mp member
      obtain ⟨root, first, path⟩ := ih.mp earlier
      exact ⟨root, first, path.step feeds⟩
    · intro given
      obtain ⟨root, first, path⟩ := given
      cases path with
      | step path feeds =>
        exact mem_nextFrontier.mpr ⟨_, ih.mpr ⟨root, first, path⟩, feeds_parent declared feeds, feeds⟩

theorem places_iff {count : Nat} : (context.plan providers policy).Places count name ↔
    ∃ names, (context.levelNames policy.levels)[count]? = some names ∧ name ∈ names := by
  have on_level : ∀ names, (context.levelNames policy.levels)[count]? = some names →
      (name ∈ (context.groupServices names).flatMap Group.names ↔ name ∈ names) :=
    fun names found => mem_level_names fun name => levelNames_declared (List.mem_of_getElem? found)
  constructor
  · intro given
    obtain ⟨level, place, named⟩ := given
    obtain ⟨names, found, same⟩ := level_grouped place
    rw [Level.names, same] at named
    exact ⟨names, found, (on_level names found).mp named⟩
  · intro given
    obtain ⟨names, found, listed⟩ := given
    exact ⟨_, grouped_level found, (on_level names found).mpr listed⟩

section Settled
variable (declared : context.Declared) (settled : context.unresolved = [])
include declared settled

theorem places_hopped {count : Nat} (hopping : policy.levels = .singleHop) :
    (context.plan providers policy).Places count name ↔ context.Away name count := by
  rw [places_iff, hopping, ← mem_frontierAfter declared]
  constructor
  · intro given
    obtain ⟨names, found, listed⟩ := given
    have same := @getElem?_frontiers _ _ 0 _ _ found
    rwa [same, Nat.zero_add] at listed
  · intro member
    exact ⟨_, level_listed declared settled (frontier_declared member) (hops_le_rank settled member), member⟩

theorem places_waited {count : Nat} (longest : policy.levels = .longestPath) :
    (context.plan providers policy).Places count name ↔
      name ∈ context.services.keys ∧ context.rankOf name = count := by
  rw [places_iff, longest]
  constructor
  · intro given
    obtain ⟨names, found, listed⟩ := given
    exact (mem_level settled found).mp listed
  · intro given
    obtain ⟨known, rfl⟩ := given
    exact levelNames_rank declared settled .longestPath known

theorem hopped_length : context.singleHopLevels.length = context.longestPathLevels.length := by
  apply Nat.le_antisymm
  · by_contra more
    have found := List.getElem?_eq_getElem (Nat.lt_of_not_le more)
    have same := @getElem?_frontiers _ _ 0 _ _ found
    obtain ⟨name, listed⟩ := List.exists_mem_of_ne_nil _ (frontiers_filled (List.mem_of_getElem? found))
    rw [same, Nat.zero_add] at listed
    have high := hops_le_rank settled listed
    have low := rank_lt_levels settled (frontier_declared listed)
    omega
  · by_contra more
    obtain ⟨name, known, rank⟩ := level_filled declared settled (Nat.lt_of_not_le more)
    have found := level_of_rank declared settled known
    rw [rank, List.getElem?_eq_none (Nat.le_refl _)] at found
    cases found

theorem away_rank (known : name ∈ context.services.keys) :
    IsGreatest {count | context.Away name count} (context.rankOf name) := by
  constructor
  · exact (mem_frontierAfter declared).mp (mem_frontier_rank declared settled known)
  · intro count away
    exact hops_le_rank settled ((mem_frontierAfter declared).mpr away)

end Settled

-- The plan with levels by single hops, alone and beside the one with levels by longest path.
structure HopAligned (context : Context) (hopped waited : Plan) : Prop where
  index : ∀ (count : Nat) (level : Level), hopped.levels[count]? = some level → level.index = count
  exact : ∀ count name, hopped.Places count name ↔ context.Away name count
  grouped : ∀ level ∈ hopped.levels, context.Grouped level
  aligned : hopped.levels.length = waited.levels.length
  last : ∀ name ∈ context.services.keys, ∃ count, (∀ place, waited.Places place name ↔ place = count) ∧
    IsGreatest {place | hopped.Places place name} count
  first : ∀ name ∈ context.services.keys, ∃ distance, IsLeast {count | context.Away name count} distance ∧
    IsLeast {place | hopped.Places place name} distance

theorem plans_aligned {hopping waiting : Policy} (hops : hopping.levels = .singleHop)
    (longest : waiting.levels = .longestPath)
    (timely : context.Timely providers (context.plan providers hopping)) :
    context.HopAligned (context.plan providers hopping) (context.plan providers waiting) := by
  have declared := timely.declared
  have settled := timely.settled
  constructor
  case index => exact fun count level place => level_index place
  case exact => exact fun count name => places_hopped declared settled hops
  case grouped =>
    intro level listed
    obtain ⟨count, place⟩ := List.getElem?_of_mem listed
    exact timely.grouped place
  case aligned =>
    rw [levels_length longest, plan, List.length_mapIdx, hops]
    exact hopped_length declared settled
  case last =>
    intro name known
    refine ⟨context.rankOf name, fun place => ?_, ?_⟩
    · rw [places_waited declared settled longest]
      exact ⟨fun given => given.2.symm, fun same => ⟨known, same.symm⟩⟩
    · simp only [places_hopped declared settled hops]
      exact away_rank declared settled known
  case first =>
    intro name known
    have some_distance : ∃ count, context.Away name count := ⟨_, (away_rank declared settled known).1⟩
    simp only [places_hopped declared settled hops, and_self]
    classical
    exact ⟨Nat.find some_distance, Nat.find_spec some_distance, fun count away => Nat.find_min' some_distance away⟩

theorem build_levels (accepted : Plan.build context providers policy = .ok plan) (strategy : LevelStrategy) :
    Plan.build context providers { policy with levels := strategy } =
      .ok (context.plan providers { policy with levels := strategy }) := by
  have same : context.wiringError? providers { policy with levels := strategy } =
      context.wiringError? providers policy := rfl
  unfold Plan.build at accepted ⊢
  rw [same]
  cases fine : context.wiringError? providers policy with
  | none => rfl
  | some error =>
    rw [fine] at accepted
    cases accepted

theorem build_hops (accepted : Plan.build context providers policy = .ok plan) : ∃ hopped waited,
    Plan.build context providers { policy with levels := .singleHop } = .ok hopped ∧
    Plan.build context providers { policy with levels := .longestPath } = .ok waited ∧
    context.HopAligned hopped waited := by
  have rebuilt := build_levels accepted .singleHop
  exact ⟨_, _, rebuilt, build_levels accepted .longestPath, plans_aligned rfl rfl (build_timely rebuilt).2⟩

end Context

theorem detour_hops : ∃ hopped waited,
    Plan.build detour seaways { Policy.standard with levels := .singleHop } = .ok hopped ∧
    Plan.build detour seaways { Policy.standard with levels := .longestPath } = .ok waited ∧
    detour.HopAligned hopped waited :=
  Context.build_hops (show Plan.build detour seaways .standard = .ok _ from rfl)

end WiredViews
