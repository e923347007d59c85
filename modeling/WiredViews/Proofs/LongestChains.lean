import Mathlib.Data.List.Chain
import Mathlib.Order.Bounds.Basic
import WiredViews.Proofs.GroupOrder
import WiredViews.Proofs.Timing

namespace WiredViews
namespace Context
variable {context : Context} {providers : Providers} {policy : Policy} {plan : Plan}

structure Chain (context : Context) (names : List String) : Prop where
  declared : ∀ name ∈ names, name ∈ context.services.keys
  linked : names.IsChain context.Feeds

theorem chain_climbs (settled : context.unresolved = []) {first : String} {rest : List String}
    (linked : (first :: rest).IsChain context.Feeds) :
    ∃ last ∈ first :: rest, context.rankOf first + rest.length ≤ context.rankOf last := by
  induction rest generalizing first with
  | nil => exact ⟨first, List.mem_singleton_self _, Nat.le_refl _⟩
  | cons second rest ih =>
    obtain ⟨feeds, further⟩ := List.isChain_cons_cons.mp linked
    obtain ⟨last, listed, high⟩ := ih further
    have higher := rank_lt_of_ancestor settled (.single feeds)
    refine ⟨last, List.mem_cons_of_mem _ listed, ?_⟩
    rw [List.length_cons]
    omega

theorem chain_to (declared : context.Declared) {name : String} (known : name ∈ context.services.keys) :
    ∃ earlier, context.Chain (earlier ++ [name]) ∧ earlier.length = context.rankOf name := by
  induction height : context.rankOf name generalizing name with
  | zero => exact ⟨[], ⟨by simpa using known, List.isChain_singleton _⟩, rfl⟩
  | succ below ih =>
    cases context.rank_attained name with
    | inl lowest => omega
    | inr attained =>
      obtain ⟨parent, feeds, equal⟩ := attained
      obtain ⟨earlier, chain, size⟩ := ih (feeds_parent declared feeds) (by omega)
      refine ⟨earlier ++ [parent], ⟨fun other listed => ?_, ?_⟩, by simp [size]⟩
      · rcases List.mem_append.mp listed with before | last
        · exact chain.declared other before
        · rwa [List.mem_singleton.mp last]
      · rw [List.append_assoc]
        exact List.isChain_append_cons_cons.mpr ⟨chain.linked, feeds, .singleton name⟩

theorem chains_bounded (declared : context.Declared) (settled : context.unresolved = []) :
    IsGreatest {size | ∃ names, context.Chain names ∧ names.length = size} context.longestPathLevels.length := by
  constructor
  · cases count : context.longestPathLevels.length with
    | zero => exact ⟨[], ⟨by simp, .nil⟩, rfl⟩
    | succ top =>
      have within : top < context.longestPathLevels.length := by omega
      obtain ⟨name, known, rank⟩ := level_filled declared settled within
      obtain ⟨earlier, chain, size⟩ := chain_to declared known
      exact ⟨_, chain, by rw [List.length_append, size, rank, List.length_singleton]⟩
  · intro size given
    obtain ⟨names, chain, rfl⟩ := given
    cases names with
    | nil => exact Nat.zero_le _
    | cons first rest =>
      obtain ⟨last, listed, high⟩ := chain_climbs settled chain.linked
      have within := rank_lt_levels settled (chain.declared last listed)
      rw [List.length_cons]
      omega

-- What levels by longest path are, without the ranks they are computed from.
structure LongestPath (context : Context) (plan : Plan) : Prop where
  index : ∀ (count : Nat) (level : Level), plan.levels[count]? = some level → level.index = count
  partition : (plan.levels.flatMap Level.names).Perm context.services.keys
  filled : ∀ level ∈ plan.levels, level.names ≠ []
  first : ∀ level ∈ plan.levels, ∀ name ∈ level.names, (∀ parent, ¬ context.Feeds parent name) → level.index = 0
  above : ∀ level ∈ plan.levels, ∀ name ∈ level.names, (∃ parent, context.Feeds parent name) →
    IsGreatest {height | ∃ lower ∈ plan.levels, ∃ parent ∈ lower.names, context.Feeds parent name ∧
      height = 1 + lower.index} level.index
  longest : IsGreatest {size | ∃ names, context.Chain names ∧ names.length = size} plan.levels.length
  grouped : ∀ level ∈ plan.levels, context.Grouped level

section Levels
variable (layered : context.Layered providers policy)
include layered

theorem levels_nodup : ((context.plan providers policy).levels.flatMap Level.names).Nodup := by
  rw [List.nodup_flatMap]
  constructor
  · intro level listed
    obtain ⟨count, place⟩ := List.getElem?_of_mem listed
    exact layered.timely.once count level place
  · rw [List.pairwise_iff_getElem]
    intro lower upper low high before name below above
    have down := ((mem_level_iff layered (List.getElem_mem low)).mp below).2
    have up := ((mem_level_iff layered (List.getElem_mem high)).mp above).2
    rw [level_index (List.getElem?_eq_getElem low)] at down
    rw [level_index (List.getElem?_eq_getElem high)] at up
    omega

theorem levels_partition :
    ((context.plan providers policy).levels.flatMap Level.names).Perm context.services.keys := by
  rw [List.perm_ext_iff_of_nodup (levels_nodup layered) context.services.keys_nodup]
  intro name
  rw [List.mem_flatMap, mem_services_iff layered]

theorem levels_filled {level : Level} (listed : level ∈ (context.plan providers policy).levels) :
    level.names ≠ [] := by
  have within := level_within listed
  rw [levels_length layered.longest] at within
  obtain ⟨name, known, rank⟩ := level_filled layered.declared layered.settled within
  exact List.ne_nil_of_mem ((mem_level_iff layered listed).mpr ⟨known, rank⟩)

theorem level_of_parents {level : Level} (listed : level ∈ (context.plan providers policy).levels) {name : String}
    (named : name ∈ level.names) (fed : ∃ parent, context.Feeds parent name) :
    IsGreatest {height | ∃ lower ∈ (context.plan providers policy).levels, ∃ parent ∈ lower.names,
      context.Feeds parent name ∧ height = 1 + lower.index} level.index := by
  have rank := ((mem_level_iff layered listed).mp named).2
  have below : ∀ {parent}, context.Feeds parent name → context.rankOf parent < context.rankOf name :=
    fun feeds => rank_lt_of_ancestor layered.settled (.single feeds)
  constructor
  · obtain ⟨parent, feeds, equal⟩ : ∃ parent, context.Feeds parent name ∧
        context.rankOf name = context.rankOf parent + 1 := by
      cases context.rank_attained name with
      | inr attained => exact attained
      | inl lowest =>
        obtain ⟨parent, feeds⟩ := fed
        have lower := below feeds
        omega
    obtain ⟨lower, member, inside⟩ := (mem_services_iff layered).mp (feeds_parent layered.declared feeds)
    have height := ((mem_level_iff layered member).mp inside).2
    exact ⟨lower, member, parent, inside, feeds, by omega⟩
  · intro height given
    obtain ⟨lower, member, parent, inside, feeds, rfl⟩ := given
    have height := ((mem_level_iff layered member).mp inside).2
    have lower := below feeds
    omega

end Levels

theorem build_longest (accepted : Plan.build context providers policy = .ok plan)
    (longest : policy.levels = .longestPath) : context.LongestPath plan := by
  obtain ⟨rfl, layered⟩ := build_layered accepted longest
  constructor
  case index => exact fun count level place => level_index place
  case partition => exact levels_partition layered
  case filled => exact fun level listed => levels_filled layered listed
  case first =>
    intro level listed name named orphan
    rw [← ((mem_level_iff layered listed).mp named).2]
    cases context.rank_attained name with
    | inl lowest => exact lowest
    | inr attained =>
      obtain ⟨parent, feeds, _⟩ := attained
      exact absurd feeds (orphan parent)
  case above => exact fun level listed name named fed => level_of_parents layered listed named fed
  case longest =>
    rw [levels_length longest]
    exact chains_bounded layered.declared layered.settled
  case grouped =>
    intro level listed
    obtain ⟨count, place⟩ := List.getElem?_of_mem listed
    exact layered.timely.grouped place

end Context

def detour : Context where
  bindings := Table.ofList [("start", .constant "Oslo"), ("port", .reference "over" "goal"),
    ("stop", .reference "out" "goal"), ("end", .reference "on" "goal")]
  services := Table.ofList [("on", ⟨"Trip", [⟨"from", "port"⟩, ⟨"by", "stop"⟩]⟩),
    ("over", ⟨"Ferry", [⟨"from", "stop"⟩]⟩), ("out", ⟨"Trip", [⟨"from", "start"⟩]⟩),
    ("away", ⟨"Ferry", [⟨"from", "stop"⟩]⟩)]

theorem detour_longest : (detour.plan seaways .standard).levels.map Level.names = [["out"], ["over", "away"], ["on"]] ∧
    detour.LongestPath (detour.plan seaways .standard) :=
  ⟨by decide +kernel, Context.build_longest (show Plan.build detour seaways .standard = .ok _ from rfl) rfl⟩

end WiredViews
