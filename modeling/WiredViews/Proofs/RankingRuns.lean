import Mathlib.Data.Set.Card
import WiredViews.Proofs.HopLevels

namespace WiredViews
namespace Context
variable {context : Context} {had : List String} {state : RankingState} {name : String}

-- The turn of a service: who is put into the queue by it, and that no count is lowered which is
-- zero already. A child is put in by the last of its parents, so nobody is by two turns.
structure TurnTaken (context : Context) (had : List String) (state : RankingState) (name : String)
    (rest : List String) : Prop where
  entered : ∃ entering, (state.step context.children).queue = rest ++ entering ∧ ∀ child, child ∈ entering ↔
    context.Feeds name child ∧ ∀ parent, context.Feeds parent child → parent ∈ had ++ [name]
  lowered : ∀ before child after, context.childrenOf name = before ++ child :: after →
    0 < (before.foldl (RankingState.visit (state.rankOf name)) { state with queue := rest }).pending.getD child 0

-- What is true between turns, said of the services that feed each other and not of the tables.
-- Whoever was put into the queue until then is in `had ++ state.queue`. A root has nobody to
-- rank above.
structure Underway (context : Context) (had : List String) (state : RankingState) : Prop where
  counted : state.pending.keys = context.services.keys
  pending : ∀ name ∈ context.services.keys,
    state.pending.get? name = some {parent | context.Feeds parent name ∧ parent ∉ had}.ncard
  once : (had ++ state.queue).Nodup
  enqueued : ∀ name, name ∈ had ++ state.queue ↔
    name ∈ context.services.keys ∧ ∀ parent, context.Feeds parent name → parent ∈ had
  longest : ∀ name ∈ had ++ state.queue, ∃ rank, state.ranks.get? name = some rank ∧
    IsGreatest {count | context.Away name count} rank
  above : ∀ name rank, state.ranks.get? name = some rank → context.Root name ∧ rank = 0 ∨
    IsGreatest {height | ∃ parent ∈ had, context.Feeds parent name ∧ ∃ below,
      state.ranks.get? parent = some below ∧ height = 1 + below} rank
  turn : ∀ name rest, state.queue = name :: rest → context.TurnTaken had state name rest

section Ranks
variable (ranked : context.Ranked had state)
include ranked

theorem Ranked.parents_had (listed : name ∈ had ++ state.queue) {parent : String}
    (feeds : context.Feeds parent name) : parent ∈ had :=
  ((ranked.turns name).mp listed).2 parent (mem_parentsOf.mpr feeds)

theorem Ranked.pending_ncard (known : name ∈ context.services.keys) :
    state.pending.get? name = some {parent | context.Feeds parent name ∧ parent ∉ had}.ncard := by
  have waiting : {parent | context.Feeds parent name ∧ parent ∉ had} =
      (((context.parentsOf name).filter (· ∉ had)).toFinset : Set String) := by
    ext parent
    simp [mem_parentsOf]
  have distinct : ((context.parentsOf name).filter (· ∉ had)).Nodup := (nodup_parentsOf name).filter _
  obtain ⟨count, held⟩ := Table.mem_keys.mp (ranked.counted.symm ▸ known)
  have counted := ranked.pending name known
  rw [Table.getD_of_get? held] at counted
  rw [held, waiting, Set.ncard_coe_finset, List.toFinset_card_of_nodup distinct, counted,
    List.countP_eq_length_filter]

-- Down from parent to parent of the highest rank, a path as long as the rank leads to a root.
theorem Ranked.rank_away (listed : name ∈ had ++ state.queue) : context.Away name (state.rankOf name) := by
  induction height : state.rankOf name generalizing name with
  | zero =>
    refine ⟨name, ⟨((ranked.turns name).mp listed).1, fun parent feeds => ?_⟩, .here⟩
    have lower := ranked.above name parent (mem_parentsOf.mpr feeds) (ranked.parents_had listed feeds)
    omega
  | succ below ih =>
    cases ranked.attained name with
    | inl lowest => omega
    | inr attained =>
      obtain ⟨parent, member, early, equal⟩ := attained
      obtain ⟨root, first, path⟩ := @ih parent (List.mem_append_left _ early) (by omega)
      exact ⟨root, first, path.step (mem_parentsOf.mp member)⟩

theorem Ranked.hops_below {root : String} {count : Nat} (path : context.Hops root count name)
    (listed : name ∈ had ++ state.queue) : count ≤ state.rankOf name := by
  induction path with
  | here => exact Nat.zero_le _
  | step _ feeds ih =>
    have early := ranked.parents_had listed feeds
    have lower := ih (List.mem_append_left _ early)
    have higher := ranked.above _ _ (mem_parentsOf.mpr feeds) early
    omega

theorem Ranked.rank_above {rank : Nat} (held : state.ranks.get? name = some rank) :
    context.Root name ∧ rank = 0 ∨
      IsGreatest {height | ∃ parent ∈ had, context.Feeds parent name ∧ ∃ below,
        state.ranks.get? parent = some below ∧ height = 1 + below} rank := by
  have listed := Table.mem_keys.mpr ⟨rank, held⟩
  rw [RankingState.get?_rankOf listed, Option.some.injEq] at held
  subst held
  have parent_held : ∀ {parent}, parent ∈ had → state.ranks.get? parent = some (state.rankOf parent) :=
    fun early => ranked.rank_held (List.mem_append_left _ early)
  by_cases fed : ∃ parent ∈ had, context.Feeds parent name
  · refine Or.inr ⟨?_, ?_⟩
    · cases ranked.attained name with
      | inl lowest =>
        obtain ⟨parent, early, feeds⟩ := fed
        have lower := ranked.above name parent (mem_parentsOf.mpr feeds) early
        omega
      | inr attained =>
        obtain ⟨parent, member, early, equal⟩ := attained
        exact ⟨parent, early, mem_parentsOf.mp member, _, parent_held early, by omega⟩
    · intro height given
      obtain ⟨parent, early, feeds, below, found, rfl⟩ := given
      have lower := ranked.above name parent (mem_parentsOf.mpr feeds) early
      rw [parent_held early, Option.some.injEq] at found
      omega
  · have unfed : ∀ parent ∈ context.parentsOf name, parent ∉ had :=
      fun parent member early => fed ⟨parent, early, mem_parentsOf.mp member⟩
    refine Or.inl ⟨?_, ?_⟩
    · rcases (ranked.ranked name).mp listed with root | ⟨parent, member, early⟩
      · exact root_iff.mpr root
      · exact absurd early (unfed parent member)
    · rcases ranked.attained name with lowest | ⟨parent, member, early, _⟩
      · exact lowest
      · exact absurd early (unfed parent member)

theorem Ranked.taken {rest : List String} (next : state.queue = name :: rest) :
    context.TurnTaken had state name rest where
  entered := by
    refine ⟨_, ranked.queue_after next, fun child => ?_⟩
    rw [List.mem_filter, decide_eq_true_eq, ranked.mem_kids next, List.countP_eq_zero]
    simp only [mem_parentsOf, decide_eq_true_eq, not_not]
  lowered := by
    intro before child after split
    have distinct : (context.childrenOf name).Nodup := nodup_childrenOf name
    rw [split] at distinct
    have listed : name ∈ context.parentsOf child :=
      (ranked.mem_kids next).mp (by rw [split]; simp)
    have apart : child ∉ before := fun earlier =>
      List.disjoint_of_nodup_append distinct earlier List.mem_cons_self
    rw [RankingState.pending_visits distinct.of_append_left, if_neg apart]
    exact ranked.kid_counted next listed

end Ranks

theorem turned_underway (turned : context.Turned had state) : context.Underway had state := by
  have ranked := turned.ranked
  constructor
  case counted => exact ranked.counted
  case pending => exact fun name known => ranked.pending_ncard known
  case once => exact ranked.once
  case enqueued =>
    intro name
    rw [ranked.turns name]
    simp only [mem_parentsOf]
  case longest =>
    intro name listed
    refine ⟨_, ranked.rank_held listed, ranked.rank_away listed, fun count away => ?_⟩
    obtain ⟨root, _, path⟩ := away
    exact ranked.hops_below path listed
  case above => exact fun name rank held => ranked.rank_above held
  case turn => exact fun name rest next => ranked.taken next

end Context

def roundabout : Context where
  bindings := Table.ofList [("start", .constant "Oslo"), ("stop", .reference "out" "goal"),
    ("port", .reference "over" "goal"), ("exit", .reference "on" "goal"), ("turn", .reference "back" "goal")]
  services := Table.ofList [("on", ⟨"Trip", [⟨"from", "port"⟩, ⟨"by", "turn"⟩]⟩),
    ("out", ⟨"Trip", [⟨"from", "start"⟩]⟩), ("over", ⟨"Ferry", [⟨"from", "stop"⟩]⟩),
    ("back", ⟨"Ferry", [⟨"from", "exit"⟩]⟩)]

theorem roundabout_underway : ∃ state, roundabout.Turned ["out", "over"] state ∧ state.queue = [] ∧
    state.pending.rows = [("on", 1), ("out", 0), ("over", 0), ("back", 1)] ∧
    state.ranks.rows = [("out", 0), ("over", 1), ("on", 2)] ∧ roundabout.Underway ["out", "over"] state := by
  have first : roundabout.rankingStart.queue = ["out"] := by decide +kernel
  have second : (roundabout.rankingStart.step roundabout.children).queue = ["over"] := by decide +kernel
  have turned : roundabout.Turned ["out", "over"] _ := .turn (.turn .start first) second
  exact ⟨_, turned, by decide +kernel, by decide +kernel, by decide +kernel, Context.turned_underway turned⟩

end WiredViews
