import WiredViews.Proofs.RankingRuns
import WiredViews.Proofs.WiringVerdict

-- The two loops by which levels are made come to their end, and within how many rounds. The
-- bounds that the loops are given are never what ends them.
namespace WiredViews
namespace Context
variable {context : Context} {had names frontier : List String} {state : RankingState}
  {levels : List (List String)} {name : String}

inductive Hopped (context : Context) : List (List String) → List String → Prop where
  | start : Hopped context [] context.roots
  | round {levels : List (List String)} {frontier : List String} (earlier : Hopped context levels frontier)
      (left : frontier ≠ []) : Hopped context (levels ++ [frontier]) (context.nextFrontier frontier)

-- Both loops from their starts. Rounds are bounded while they go on, and what the loops come
-- to is what levels are made of. Behind a cycle frontiers never die out.
structure LoopsEnd (context : Context) : Prop where
  turns : ∀ had state, context.Turned had state → had.length ≤ context.services.size
  turned : ∃ had, context.Turned had context.rankingEnd ∧
    had.length + context.unresolved.length = context.services.size
  stopped : ∀ had state, context.Turned had state → (state.queue = [] ↔ state = context.rankingEnd)
  rounds : context.cycle? = none → ∀ levels frontier, context.Hopped levels frontier →
    levels.length ≤ context.services.size
  hopped : context.cycle? = none → ∀ levels, context.Hopped levels [] ↔ levels = context.singleHopLevels
  longest : context.cycle? = none →
    IsGreatest {size | ∃ names, context.Chain names ∧ names.length = size} context.singleHopLevels.length
  endless : ∀ looped count, context.OnCycle looped → context.Away looped count →
    ∀ rounds, ∃ levels frontier, context.Hopped levels frontier ∧ frontier ≠ [] ∧ levels.length = rounds

theorem Turned.steps (turned : context.Turned had state) :
    state = context.rankingStart.steps context.children had.length := by
  induction turned with
  | start => rfl
  | turn _ _ ih => rw [List.length_append, RankingState.steps_add, ← ih]; rfl

theorem Turned.bounded (turned : context.Turned had state) : had.length ≤ context.services.size :=
  Nat.le_of_add_right_le turned.ranked.bounded

theorem Turned.stopped (turned : context.Turned had state) (idle : state.queue = []) : state = context.rankingEnd := by
  obtain ⟨more, size⟩ := Nat.exists_eq_add_of_le turned.bounded
  rw [rankingEnd, size, RankingState.steps_add, ← turned.steps, RankingState.steps_idle idle]

theorem Turned.counted (turned : context.Turned had context.rankingEnd) :
    had.length + context.unresolved.length = context.services.size := by
  have ranked := turned.ranked
  obtain ⟨_, _, idle⟩ := context.ranking_ends
  have apart : ∀ name ∈ had, name ∉ context.unresolved := fun name member waits =>
    ((ranked.unresolved_iff idle).mp waits).2 member
  have distinct : (had ++ context.unresolved).Nodup :=
    ranked.once.of_append_left.append unresolved_nodup fun name member waits => apart name member waits
  have all : (had ++ context.unresolved).Perm context.services.keys := by
    rw [List.perm_ext_iff_of_nodup distinct context.services.keys_nodup]
    intro name
    rw [List.mem_append, ranked.unresolved_iff idle]
    constructor
    · rintro (member | ⟨known, _⟩)
      · exact ((ranked.turns name).mp (List.mem_append_left _ member)).1
      · exact known
    · intro known
      by_cases member : name ∈ had
      · exact Or.inl member
      · exact Or.inr ⟨known, member⟩
  have size := all.length_eq
  rwa [List.length_append, Table.keys, List.length_map] at size

theorem Hopped.listed (hopped : context.Hopped levels frontier) :
    levels = (List.range levels.length).map context.frontierAfter ∧
      frontier = context.frontierAfter levels.length ∧
      ∀ round < levels.length, context.frontierAfter round ≠ [] := by
  induction hopped with
  | start => exact ⟨rfl, rfl, fun round below => absurd below (Nat.not_lt_zero _)⟩
  | @round levels frontier _ left ih =>
    obtain ⟨listed, now, alive⟩ := ih
    rw [List.length_append, List.length_singleton]
    refine ⟨?_, by rw [now]; rfl, fun round below => ?_⟩
    · rw [List.range_succ, List.map_append, List.map_singleton, ← listed, ← now]
    · by_cases last : round = levels.length
      · rw [last, ← now]
        exact left
      · exact alive round (by omega)

theorem hopped_to (rounds : Nat) (alive : ∀ round < rounds, context.frontierAfter round ≠ []) :
    context.Hopped ((List.range rounds).map context.frontierAfter) (context.frontierAfter rounds) := by
  induction rounds with
  | zero => exact .start
  | succ rounds ih =>
    rw [List.range_succ, List.map_append, List.map_singleton]
    exact (ih fun round below => alive round (by omega)).round (alive rounds (by omega))

theorem frontier_dead {rounds : Nat} (dead : context.frontierAfter rounds = []) (more : Nat) :
    context.frontierAfter (rounds + more) = [] := by
  induction more with
  | zero => exact dead
  | succ more ih =>
    rw [← Nat.add_assoc, frontierAfter, ih, List.eq_nil_iff_forall_not_mem]
    intro name member
    obtain ⟨parent, earlier, _⟩ := mem_nextFrontier.mp member
    exact List.not_mem_nil earlier

theorem Hopped.unique {others : List (List String)} (hopped : context.Hopped levels [])
    (other : context.Hopped others []) : levels = others := by
  obtain ⟨listed, dead, alive⟩ := hopped.listed
  obtain ⟨relisted, gone, living⟩ := other.listed
  have short : others.length ≤ levels.length := Nat.le_of_not_lt fun more => living _ more dead.symm
  have long : levels.length ≤ others.length := Nat.le_of_not_lt fun more => alive _ more gone.symm
  rw [listed, relisted, Nat.le_antisymm long short]

-- The induction is on the bound; the levels so far are what the loop has made by then.
theorem Hopped.on (count : Nat) (hopped : context.Hopped levels frontier) :
    ∃ last, context.Hopped (levels ++ context.frontiers count frontier) last ∧
      (last = [] ∨ (context.frontiers count frontier).length = count) := by
  induction count generalizing levels frontier with
  | zero => exact ⟨frontier, by rwa [frontiers, List.append_nil], Or.inr rfl⟩
  | succ count ih =>
    cases frontier with
    | nil => exact ⟨[], by rwa [frontiers, List.append_nil], Or.inl rfl⟩
    | cons first rest =>
      obtain ⟨last, further, ended⟩ := ih (hopped.round (List.cons_ne_nil first rest))
      rw [List.append_assoc] at further
      exact ⟨last, further, ended.imp_right (congrArg (· + 1))⟩

section Settled
variable (declared : context.Declared) (settled : context.unresolved = [])
include declared settled

theorem Hopped.bounded (hopped : context.Hopped levels frontier) : levels.length ≤ context.services.size :=
  Nat.le_of_not_lt fun more => hopped.listed.2.2 _ more (frontier_dies declared settled)

theorem hopped_levels : context.Hopped context.singleHopLevels [] := by
  obtain ⟨last, hopped, ended⟩ := Hopped.start.on context.services.size
  rw [List.nil_append] at hopped
  have gone : last = [] := by
    cases ended with
    | inl gone => exact gone
    | inr all =>
      rw [hopped.listed.2.1, all]
      exact frontier_dies declared settled
  rwa [gone] at hopped

theorem hopped_longest :
    IsGreatest {size | ∃ names, context.Chain names ∧ names.length = size} context.singleHopLevels.length := by
  rw [hopped_length declared settled]
  exact chains_bounded declared settled

end Settled

theorem ancestor_hops {ancestor : String} (chain : context.Ancestor ancestor name) :
    ∃ count, context.Hops ancestor (count + 1) name := by
  induction chain with
  | single feeds => exact ⟨0, .step .here feeds⟩
  | tail _ feeds ih =>
    obtain ⟨count, path⟩ := ih
    exact ⟨count + 1, path.step feeds⟩

theorem Hops.trans {source middle : String} {first second : Nat} (path : context.Hops source first middle)
    (further : context.Hops middle second name) : context.Hops source (first + second) name := by
  induction further with
  | here => exact path
  | step _ feeds ih => exact ih.step feeds

theorem away_again (cycle : context.OnCycle name) {count : Nat} (away : context.Away name count) (far : Nat) :
    ∃ further, far ≤ further ∧ context.Away name further := by
  obtain ⟨around, path⟩ := ancestor_hops cycle
  induction far with
  | zero => exact ⟨count, Nat.zero_le _, away⟩
  | succ far ih =>
    obtain ⟨further, beyond, root, first, reaches⟩ := ih
    exact ⟨further + (around + 1), by omega, root, first, reaches.trans path⟩

theorem frontier_endless (declared : context.Declared) (cycle : context.OnCycle name) {count : Nat}
    (away : context.Away name count) (round : Nat) : context.frontierAfter round ≠ [] := by
  intro dead
  obtain ⟨further, beyond, again⟩ := away_again cycle away round
  obtain ⟨more, rfl⟩ := Nat.exists_eq_add_of_le beyond
  have member := (mem_frontierAfter declared).mpr again
  rw [frontier_dead dead more] at member
  cases member

theorem loops_end (known : context.unknownService? = none) : context.LoopsEnd := by
  have declared := unknownService?_eq_none.mp known
  have settled : context.cycle? = none → context.unresolved = [] := fun none =>
    (unresolved_eq_nil declared).mpr ((cycle?_eq_none declared).mp none)
  constructor
  case turns => exact fun had state turned => turned.bounded
  case turned =>
    obtain ⟨had, turned, _⟩ := context.turned_on context.services.size
    exact ⟨had, turned, turned.counted⟩
  case stopped =>
    intro had state turned
    refine ⟨turned.stopped, ?_⟩
    rintro rfl
    obtain ⟨_, _, idle⟩ := context.ranking_ends
    exact idle
  case rounds => exact fun none levels frontier hopped => hopped.bounded declared (settled none)
  case hopped =>
    intro none levels
    have whole := hopped_levels declared (settled none)
    refine ⟨fun hopped => hopped.unique whole, ?_⟩
    rintro rfl
    exact whole
  case longest => exact fun none => hopped_longest declared (settled none)
  case endless =>
    intro looped count cycle away rounds
    have alive := frontier_endless declared cycle away
    exact ⟨_, _, hopped_to rounds fun round _ => alive round, alive rounds, by simp⟩

end Context

theorem detour_loops : detour.cycle? = none ∧ detour.LoopsEnd ∧
    detour.singleHopLevels = [["out"], ["on", "over", "away"], ["on"]] ∧
    roundabout.unresolved = ["on", "back"] ∧ roundabout.LoopsEnd :=
  ⟨by decide +kernel, Context.loops_end (by decide +kernel), by decide +kernel, by decide +kernel,
    Context.loops_end (by decide +kernel)⟩

end WiredViews
