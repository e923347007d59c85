import WiredViews.Proofs.WiringVerdict

namespace WiredViews
namespace Context
variable {context : Context} {providers : Providers} {policy : Policy}

-- Each lookup with the checks that come before it. The state of the ranking is that
-- after any number of turns, and a turn only takes from counts that are not zero.
structure LookupsFound (context : Context) (providers : Providers) (policy : Policy) : Prop where
  models : context.ProvidersKnown providers →
    ∀ name ∈ context.checkedProviders providers policy, name ∈ providers.keys
  parents : context.Declared →
    ∀ child, ∀ parent ∈ context.parentsOf child, parent ∈ context.children.keys
  turns : ∀ count name rest, (context.rankingStart.steps context.children count).queue = name :: rest →
    name ∈ context.children.keys ∧
    name ∈ (context.rankingStart.steps context.children count).ranks.keys ∧
    ∀ child ∈ context.childrenOf name,
      child ∈ (context.rankingStart.steps context.children count).pending.keys ∧
      0 < (context.rankingStart.steps context.children count).pending.getD child 0
  turnsEnd : context.rankingEnd.queue = []
  ranks : context.Declared → (∀ name, ¬ context.OnCycle name) → ∀ name ∈ context.services.keys,
    ∃ rank, context.ranks.get? name = some rank ∧ rank < context.longestPathLevels.length
  frontiers : ∀ hops, ∀ name ∈ context.frontierAfter hops, name ∈ context.children.keys
  frontiersEnd : context.Declared → (∀ name, ¬ context.OnCycle name) →
    context.frontierAfter context.services.size = []
  members : ∀ names ∈ context.levelNames policy.levels, ∀ name ∈ names, name ∈ context.services.keys

theorem turn_lookups {count : Nat} {name : String} {rest : List String}
    (next : (context.rankingStart.steps context.children count).queue = name :: rest) :
    name ∈ context.children.keys ∧
    name ∈ (context.rankingStart.steps context.children count).ranks.keys ∧
    ∀ child ∈ context.childrenOf name,
      child ∈ (context.rankingStart.steps context.children count).pending.keys ∧
      0 < (context.rankingStart.steps context.children count).pending.getD child 0 := by
  obtain ⟨had, turned, _⟩ := context.turned_on count
  have ranked := turned.ranked
  refine ⟨children_keys ▸ ranked.next_declared next, ?_, fun child kid => ?_⟩
  · exact Table.mem_keys.mpr ⟨_, ranked.rank_held (by simp [next])⟩
  · have listed := (ranked.mem_kids next).mp kid
    exact ⟨ranked.counted ▸ feeds_child (mem_parentsOf.mp listed), ranked.kid_counted next listed⟩

theorem lookups_found (context : Context) (providers : Providers) (policy : Policy) :
    context.LookupsFound providers policy where
  models known _ checked := checked_known known checked
  parents declared _ _ listed := children_keys ▸ feeds_parent declared (mem_parentsOf.mp listed)
  turns _ _ _ next := turn_lookups next
  turnsEnd := by
    obtain ⟨_, _, idle⟩ := context.ranking_ends
    exact idle
  ranks declared acyclic name known :=
    ⟨context.rankOf name, get?_ranks ((unresolved_eq_nil declared).mpr acyclic) known,
      rank_lt_levels ((unresolved_eq_nil declared).mpr acyclic) known⟩
  frontiers _ _ member := children_keys ▸ frontier_declared member
  frontiersEnd declared acyclic := frontier_dies declared ((unresolved_eq_nil declared).mpr acyclic)
  members _ level _ member := levelNames_declared level member

theorem build_exact (context : Context) (providers : Providers) (policy : Policy) :
    (∀ outcome, Plan.build context providers policy = outcome ↔ context.Verdict providers policy outcome) ∧
      context.LookupsFound providers policy := by
  refine ⟨fun outcome => ⟨?_, verdict_build⟩, lookups_found context providers policy⟩
  rintro rfl
  exact build_verdict

end Context
end WiredViews
