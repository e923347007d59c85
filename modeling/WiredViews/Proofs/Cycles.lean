import WiredViews.Proofs.RankingTurns

-- Where the ranking gets stuck: on cycles and behind them, and nowhere else.
namespace WiredViews
namespace Context
variable {context : Context}

def rankOf (context : Context) (name : String) : Nat :=
  context.ranks.getD name 0

section Ended
variable {finished : List String}

theorem Ranked.had_turn (ranked : context.Ranked finished context.rankingEnd)
    (idle : context.rankingEnd.queue = []) {name : String} :
    name ∈ finished ↔ name ∈ context.services.keys ∧ ∀ parent ∈ context.parentsOf name, parent ∈ finished := by
  have turns := ranked.turns name
  rwa [idle, List.append_nil] at turns

theorem Ranked.held_up (ranked : context.Ranked finished context.rankingEnd)
    (idle : context.rankingEnd.queue = []) {name : String} (known : name ∈ context.services.keys)
    (missing : name ∉ finished) : ∃ parent ∈ context.parentsOf name, parent ∉ finished := by
  by_contra none
  push Not at none
  exact missing ((ranked.had_turn idle).mpr ⟨known, none⟩)

theorem Ranked.unresolved_iff (ranked : context.Ranked finished context.rankingEnd)
    (idle : context.rankingEnd.queue = []) {name : String} :
    name ∈ context.unresolved ↔ name ∈ context.services.keys ∧ name ∉ finished := by
  unfold unresolved
  simp only [List.mem_map, List.mem_filter, decide_eq_true_eq]
  constructor
  · intro given
    obtain ⟨⟨other, count⟩, ⟨member, waits⟩, rfl⟩ := given
    have held := Table.get?_eq_some.mpr member
    have declared : other ∈ context.services.keys :=
      ranked.counted ▸ Table.mem_keys.mpr ⟨count, held⟩
    refine ⟨declared, fun had => ?_⟩
    have counted := ranked.pending other declared
    rw [Table.getD_of_get? held] at counted
    rw [counted, List.countP_pos_iff] at waits
    obtain ⟨parent, listed, missing⟩ := waits
    exact absurd (((ranked.had_turn idle).mp had).2 parent listed) (by simpa using missing)
  · intro given
    obtain ⟨declared, missing⟩ := given
    obtain ⟨count, held⟩ := Table.mem_keys.mp (ranked.counted.symm ▸ declared)
    refine ⟨(name, count), ⟨Table.get?_eq_some.mp held, ?_⟩, rfl⟩
    have counted := ranked.pending name declared
    rw [Table.getD_of_get? held] at counted
    obtain ⟨parent, listed, absent⟩ := ranked.held_up idle declared missing
    rw [counted, List.countP_pos_iff]
    exact ⟨parent, listed, by simpa using absent⟩

theorem Ranked.all_had (ranked : context.Ranked finished context.rankingEnd)
    (idle : context.rankingEnd.queue = []) (settled : context.unresolved = []) {name : String}
    (known : name ∈ context.services.keys) : name ∈ finished := by
  by_contra missing
  have waits := (ranked.unresolved_iff idle).mpr ⟨known, missing⟩
  rw [settled] at waits
  simp at waits

theorem Ranked.ancestor_below (ranked : context.Ranked finished context.rankingEnd)
    (idle : context.rankingEnd.queue = []) {ancestor name : String}
    (chain : context.Ancestor ancestor name) (had : name ∈ finished) :
    ancestor ∈ finished ∧ context.rankOf ancestor < context.rankOf name := by
  induction chain with
  | single feeds =>
    have listed := mem_parentsOf.mpr feeds
    have early := ((ranked.had_turn idle).mp had).2 _ listed
    exact ⟨early, ranked.above _ _ listed early⟩
  | tail _ feeds ih =>
    have listed := mem_parentsOf.mpr feeds
    have early := ((ranked.had_turn idle).mp had).2 _ listed
    have higher := ranked.above _ _ listed early
    obtain ⟨found, lower⟩ := ih early
    exact ⟨found, Nat.lt_trans lower higher⟩

end Ended

-- Walking from parent to parent among finitely many services comes back to one
-- that was passed before. The current service is an ancestor of all that were seen.
theorem walk_loops {stuck seen : List String} {current : String}
    (fed : ∀ name ∈ stuck, ∃ parent ∈ stuck, context.Feeds parent name)
    (member : current ∈ stuck) (within : seen ⊆ stuck) (distinct : seen.Nodup)
    (behind : ∀ name ∈ seen, context.Ancestor current name) :
    ∃ looped, context.OnCycle looped ∧ (looped = current ∨ context.Ancestor looped current) := by
  by_cases back : current ∈ seen
  · exact ⟨current, behind current back, Or.inl rfl⟩
  · obtain ⟨parent, listed, feeds⟩ := fed current member
    have shorter : (current :: seen).length ≤ stuck.length :=
      ((List.nodup_cons.mpr ⟨back, distinct⟩).subperm (by simp [member, within])).length_le
    have further : ∀ name ∈ current :: seen, context.Ancestor parent name := by
      intro name passed
      rcases List.mem_cons.mp passed with rfl | earlier
      · exact .single feeds
      · exact .head feeds (behind name earlier)
    obtain ⟨looped, cycle, reaches⟩ :=
      walk_loops fed listed (by simp [member, within] : current :: seen ⊆ stuck)
        (List.nodup_cons.mpr ⟨back, distinct⟩) further
    refine ⟨looped, cycle, Or.inr ?_⟩
    rcases reaches with rfl | chain
    · exact .single feeds
    · exact chain.tail feeds
termination_by stuck.length - seen.length
decreasing_by
  simp only [List.length_cons] at shorter ⊢
  omega

theorem mem_unresolved (declared : context.Declared) {name : String} :
    name ∈ context.unresolved ↔
      ∃ looped, context.OnCycle looped ∧ (looped = name ∨ context.Ancestor looped name) := by
  obtain ⟨finished, ranked, idle⟩ := context.ranking_ends
  constructor
  · intro waits
    have fed : ∀ stuck ∈ context.unresolved, ∃ parent ∈ context.unresolved, context.Feeds parent stuck := by
      intro stuck member
      obtain ⟨known, missing⟩ := (ranked.unresolved_iff idle).mp member
      obtain ⟨parent, listed, absent⟩ := ranked.held_up idle known missing
      have feeds := mem_parentsOf.mp listed
      exact ⟨parent, (ranked.unresolved_iff idle).mpr ⟨feeds_parent declared feeds, absent⟩, feeds⟩
    exact walk_loops fed waits (List.nil_subset _) List.nodup_nil (by simp)
  · intro given
    obtain ⟨looped, cycle, reaches⟩ := given
    have never : looped ∉ finished :=
      fun had => Nat.lt_irrefl _ (ranked.ancestor_below idle cycle had).2
    rw [ranked.unresolved_iff idle]
    rcases reaches with rfl | chain
    · exact ⟨ancestor_child cycle, never⟩
    · exact ⟨ancestor_child chain, fun had => never (ranked.ancestor_below idle chain had).1⟩

theorem unresolved_eq_nil (declared : context.Declared) :
    context.unresolved = [] ↔ ∀ name, ¬ context.OnCycle name := by
  rw [List.eq_nil_iff_forall_not_mem]
  constructor
  · intro none name cycle
    exact none name ((mem_unresolved declared).mpr ⟨name, cycle, Or.inl rfl⟩)
  · intro none name waits
    obtain ⟨looped, cycle, _⟩ := (mem_unresolved declared).mp waits
    exact none looped cycle

section Settled
variable {name : String}

theorem get?_ranks (settled : context.unresolved = []) (known : name ∈ context.services.keys) :
    context.ranks.get? name = some (context.rankOf name) := by
  obtain ⟨finished, ranked, idle⟩ := context.ranking_ends
  exact ranked.rank_held (List.mem_append_left _ (ranked.all_had idle settled known))

theorem get?_ranks_eq_some (settled : context.unresolved = []) {rank : Nat} :
    context.ranks.get? name = some rank ↔ name ∈ context.services.keys ∧ context.rankOf name = rank := by
  constructor
  · intro found
    obtain ⟨finished, ranked, _⟩ := context.ranking_ends
    have known : name ∈ context.services.keys := by
      rcases (ranked.ranked name).mp (Table.mem_keys.mpr ⟨rank, found⟩) with root | ⟨parent, listed, _⟩
      · exact (mem_roots.mp root).1
      · exact feeds_child (mem_parentsOf.mp listed)
    rw [get?_ranks settled known] at found
    exact ⟨known, Option.some.inj found⟩
  · intro given
    obtain ⟨known, rfl⟩ := given
    exact get?_ranks settled known

theorem rank_lt_of_ancestor (settled : context.unresolved = []) {ancestor : String}
    (chain : context.Ancestor ancestor name) : context.rankOf ancestor < context.rankOf name := by
  obtain ⟨finished, ranked, idle⟩ := context.ranking_ends
  exact (ranked.ancestor_below idle chain (ranked.all_had idle settled (ancestor_child chain))).2

theorem rank_attained (name : String) :
    context.rankOf name = 0 ∨ ∃ parent, context.Feeds parent name ∧
      context.rankOf name = context.rankOf parent + 1 := by
  obtain ⟨finished, ranked, _⟩ := context.ranking_ends
  rcases ranked.attained name with zero | ⟨parent, listed, _, equal⟩
  · exact Or.inl zero
  · exact Or.inr ⟨parent, mem_parentsOf.mp listed, equal⟩

end Settled
end Context
end WiredViews
