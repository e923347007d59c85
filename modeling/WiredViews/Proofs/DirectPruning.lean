import WiredViews.Proofs.Standings

-- How far the failure of a service reaches when it is passed on to its children only. Who is
-- called behind them depends on how far the run comes: it does not come beyond a level of which
-- all services are pruned, whatever stands on the levels above.
namespace WiredViews
namespace Context
variable {context : Context} {providers : Providers} {policy : Policy} {world : World} {overrides : Record}

def Orphaned (context : Context) (failed : List String) (name : String) : Prop :=
  ∃ parent ∈ failed, context.Feeds parent name

theorem orphaned_append {first second : List String} {name : String} :
    context.Orphaned (first ++ second) name ↔ context.Orphaned first name ∨ context.Orphaned second name := by
  unfold Orphaned
  simp only [List.mem_append, or_and_right, exists_or]

structure Spared (context : Context) (count : Nat) (progress : Progress) : Prop where
  pruned : ∀ name, name ∈ progress.pruned ↔ context.Orphaned progress.failed name
  batched : ∀ name, progress.Batched name ↔
    name ∈ context.services.keys ∧ context.rankOf name < count ∧ name ∉ progress.pruned

theorem spared_start {plan : Plan} (tally : Tally) : context.Spared 0 (.start plan overrides tally) := by
  constructor
  case pruned => simp [Progress.start, Orphaned]
  case batched => simp [Progress.start, Progress.Batched, Progress.attempts]

section Step
variable {count : Nat} {level : Level} {progress : Progress}

theorem givenUp_direct (declared : context.Declared) (direct : policy.cascade = .direct) {attempts : List Attempt}
    {name : String} : name ∈ attempts.flatMap (context.plan providers policy).givenUp ↔
      context.Orphaned (attempts.flatMap Attempt.failedNames) name := by
  have cascade : (context.plan providers policy).policy.cascade = .direct := direct
  have lost : ChildTable.Loses (context.plan providers policy).children .direct = context.Feeds := plan_child declared
  rw [mem_givenUp, cascade, lost, Orphaned]

theorem spared_step (layered : context.Layered providers policy) (direct : policy.cascade = .direct)
    (place : (context.plan providers policy).levels[count]? = some level) (before : context.Spared count progress)
    (calm : ((context.plan providers policy).roundOf world progress level).fatal? = none) :
    context.Spared (count + 1) ((context.plan providers policy).pass world overrides progress level) := by
  constructor
  case pruned =>
    intro name
    rw [pass_pruned, pass_failed, List.mem_append, orphaned_append, before.pruned,
      givenUp_direct layered.declared direct]
  case batched => exact batched_pass layered place before.batched calm

end Step

-- What the failures of a run have come to when it returns. Parents that were pruned have given
-- nothing, and what they give is handed on as null.
structure DirectPruning (context : Context) (plan : Plan) (overrides : Record) (run : Run)
    (result : RunResult) : Prop where
  visited : ∀ level ∈ plan.levels, run.Visits level → ∀ name ∈ level.names,
    (¬ run.progress.Batched name ↔ context.Orphaned result.failed name)
  unvisited : ∀ level ∈ plan.levels, ¬ run.Visits level → ∀ name ∈ level.names, ¬ run.progress.Batched name
  stopped : ∀ level ∈ plan.levels, run.ending = .stopped level.index → ∀ name ∈ level.names,
    context.Orphaned result.failed name
  throughout : (∀ name ∈ context.services.keys, ¬ run.progress.Batched name ↔ context.Orphaned result.failed name) ↔
    ∀ level ∈ plan.levels, ¬ run.Visits level → ∀ name ∈ level.names, context.Orphaned result.failed name
  handed : ∀ attempt ∈ run.progress.attempts, List.Forall₂ (fun member arguments =>
    member.Given result.values arguments) attempt.group.members attempt.batch
  missing : ∀ name service field, context.bindings.get? name = some (.reference service field) →
    ¬ run.progress.Resolved service → name ∉ overrides.keys → result.values.read name = .null

section Returned
variable {run : Run} {result : RunResult} {count : Nat} {progress : Progress}
  (reached : run.Reaches (context.plan providers policy) result count progress)
include reached

theorem stopped_count {index : Nat} (stopped : run.ending = .stopped index) : index = count := by
  rcases reached.ended with ⟨_, completed⟩ | ⟨level, place, _, ending⟩
  · rw [completed] at stopped
    cases stopped
  · rw [ending] at stopped
    cases stopped
    exact level_index place

theorem visits_iff {level : Level} (listed : level ∈ (context.plan providers policy).levels) :
    run.Visits level ↔ level.index ≤ count := by
  constructor
  · intro visits
    rcases reached.ended with ⟨past, _⟩ | ⟨last, place, _, ending⟩
    · rw [← past]
      exact Nat.le_of_lt (level_within listed)
    · rw [← level_index place]
      exact visits last.index ending
  · intro low index stopped
    rwa [stopped_count reached stopped]

theorem Spared.left_out (layered : context.Layered providers policy) (spared : context.Spared count progress)
    {name : String} (known : name ∈ context.services.keys) (low : context.rankOf name ≤ count) :
    ¬ progress.Batched name ↔ name ∈ progress.pruned := by
  rw [spared.batched]
  constructor
  · intro left_out
    by_contra kept
    by_cases last : context.rankOf name = count
    · exact kept (next_pruned layered reached known last)
    · exact left_out ⟨known, by omega, kept⟩
  · intro pruned batched
    exact batched.2.2 pruned

theorem Spared.visited (layered : context.Layered providers policy) (spared : context.Spared count progress) :
    ∀ level ∈ (context.plan providers policy).levels, run.Visits level → ∀ name ∈ level.names,
      (¬ run.progress.Batched name ↔ context.Orphaned result.failed name) := by
  intro level listed visits name named
  have orphaned : context.Orphaned result.failed name ↔ name ∈ progress.pruned := by
    rw [spared.pruned, reached.failed]
    exact exists_congr fun _ => and_congr_left fun _ => mem_distinct
  obtain ⟨known, rank⟩ := (mem_level_iff layered listed).mp named
  have low := (visits_iff reached listed).mp visits
  rw [reached.batched, orphaned]
  exact spared.left_out reached layered known (rank ▸ low)

theorem Spared.unvisited (layered : context.Layered providers policy) (spared : context.Spared count progress) :
    ∀ level ∈ (context.plan providers policy).levels, ¬ run.Visits level → ∀ name ∈ level.names,
      ¬ run.progress.Batched name := by
  intro level listed above name named batched
  have rank := ((mem_level_iff layered listed).mp named).2
  have low := ((spared.batched name).mp (reached.batched.mp batched)).2.1
  rw [visits_iff reached listed] at above
  omega

theorem Spared.stopped (layered : context.Layered providers policy) (spared : context.Spared count progress) :
    ∀ level ∈ (context.plan providers policy).levels, run.ending = .stopped level.index → ∀ name ∈ level.names,
      context.Orphaned result.failed name := by
  intro level listed stopped name named
  obtain ⟨known, rank⟩ := (mem_level_iff layered listed).mp named
  have last := next_pruned layered reached known (rank.trans (stopped_count reached stopped))
  obtain ⟨parent, failed, feeds⟩ := (spared.pruned name).mp last
  exact ⟨parent, reached.failed ▸ mem_distinct.mpr failed, feeds⟩

end Returned

theorem unresolved_null {tally : Tally} {result : RunResult}
    (returned : ((context.plan providers policy).run world overrides tally).result = .ok result)
    {name service field : String} (bound : context.bindings.get? name = some (.reference service field))
    (unresolved : ¬ ((context.plan providers policy).run world overrides tally).progress.Resolved service)
    (free : name ∉ overrides.keys) : result.values.read name = .null := by
  have lacking : result.values.get? name = none := by
    rw [run_values returned]
    exact snapshot_lacking bound free fun answer answered same =>
      unresolved (supplied_iff.mpr ⟨answer, answered, same⟩).resolved
  rw [Record.read, Table.getD, lacking, Option.getD_none]

theorem run_prunes {plan : Plan} {tally : Tally} {result : RunResult}
    (accepted : Plan.build context providers policy = .ok plan) (longest : policy.levels = .longestPath)
    (direct : policy.cascade = .direct) (returned : (plan.run world overrides tally).result = .ok result) :
    context.DirectPruning plan overrides (plan.run world overrides tally) result := by
  obtain ⟨rfl, layered⟩ := build_layered accepted longest
  obtain ⟨count, progress, spared, reached⟩ := run_invariant returned (spared_start tally)
    fun _ _ _ place before calm => spared_step layered direct place before calm
  have visited := spared.visited reached layered
  have unvisited := spared.unvisited reached layered
  constructor
  case visited => exact visited
  case unvisited => exact unvisited
  case stopped => exact spared.stopped reached layered
  case throughout =>
    constructor
    · intro all level listed above name named
      have known := ((mem_level_iff layered listed).mp named).1
      exact (all name known).mp (unvisited level listed above name named)
    · intro all name known
      obtain ⟨level, listed, named⟩ := (mem_services_iff layered).mp known
      by_cases visits : ((context.plan providers policy).run world overrides tally).Visits level
      · exact visited level listed visits name named
      · exact iff_of_true (unvisited level listed visits name named) (all level listed visits name named)
  case handed =>
    obtain ⟨_, after, consistent, ended⟩ := returned_consistent layered returned
    rw [ended.attempts, ended.values]
    exact fun attempt made => consistent.given made
  case missing => exact fun name service field bound unresolved free => unresolved_null returned bound unresolved free

end Context

def archipelago : Context where
  bindings := Table.ofList [("start", .constant "Oslo"), ("stop", .reference "out" "goal"),
    ("port", .reference "over" "goal"), ("end", .reference "on" "goal"), ("isle", .reference "across" "goal"),
    ("home", .reference "back" "goal")]
  services := Table.ofList [("out", ⟨"Trip", [⟨"from", "start"⟩]⟩), ("over", ⟨"Ferry", [⟨"from", "stop"⟩]⟩),
    ("on", ⟨"Ferry", [⟨"from", "port"⟩]⟩), ("across", ⟨"Ferry", [⟨"from", "start"⟩]⟩),
    ("back", ⟨"Ferry", [⟨"from", "isle"⟩]⟩)]

theorem archipelago_prunes : ∃ result,
    ((archipelago.plan seaways ⟨.longestPath, .direct, true⟩).run railStrike ∅ .none).result = .ok result ∧
    result.failed = ["out"] ∧ result.skipped = ["over"] ∧
    (((archipelago.plan seaways ⟨.longestPath, .direct, true⟩).run railStrike ∅ .none).progress.attempts.map
      fun attempt => (attempt.group.names, attempt.batch.map Table.rows)) =
      [(["out"], [[("from", .str "Oslo")]]), (["across"], [[("from", .str "Oslo")]]),
        (["back"], [[("from", .str "Oslo")]]), (["on"], [[("from", .null)]])] ∧
    archipelago.DirectPruning (archipelago.plan seaways ⟨.longestPath, .direct, true⟩) ∅
      ((archipelago.plan seaways ⟨.longestPath, .direct, true⟩).run railStrike ∅ .none) result := by
  have returned : ((archipelago.plan seaways ⟨.longestPath, .direct, true⟩).run railStrike ∅ .none).result =
      .ok ((archipelago.plan seaways ⟨.longestPath, .direct, true⟩).run railStrike ∅ .none).progress.result := by
    with_unfolding_all rfl
  exact ⟨_, returned, by decide +kernel, by decide +kernel, by with_unfolding_all rfl, Context.run_prunes
    (show Plan.build archipelago seaways ⟨.longestPath, .direct, true⟩ = .ok _ from rfl) rfl rfl returned⟩

-- The parent of the last ferry was merely pruned, but nothing else is left on its level.
theorem voyage_uncalled :
    Plan.build voyage seaways ⟨.longestPath, .direct, true⟩ = .ok (voyage.plan seaways ⟨.longestPath, .direct, true⟩) ∧
    ∃ result, ((voyage.plan seaways ⟨.longestPath, .direct, true⟩).run railStrike ∅ .none).result = .ok result ∧
      "on" ∈ voyage.services.keys ∧ ¬ voyage.Orphaned result.failed "on" ∧
      ¬ ((voyage.plan seaways ⟨.longestPath, .direct, true⟩).run railStrike ∅ .none).progress.Batched "on" := by
  have uncalled : ∀ attempt ∈
      ((voyage.plan seaways ⟨.longestPath, .direct, true⟩).run railStrike ∅ .none).progress.attempts,
      "on" ∉ attempt.group.names := by
    decide +kernel
  have failed : ((voyage.plan seaways ⟨.longestPath, .direct, true⟩).run railStrike ∅ .none).progress.result.failed =
      ["out"] := by
    decide +kernel
  have parents : voyage.parentsOf "on" = ["over"] := by decide +kernel
  refine ⟨rfl, ((voyage.plan seaways ⟨.longestPath, .direct, true⟩).run railStrike ∅ .none).progress.result,
    by with_unfolding_all rfl, by decide +kernel, ?_, ?_⟩
  · intro orphaned
    obtain ⟨parent, listed, feeds⟩ := orphaned
    rw [failed, List.mem_singleton] at listed
    rw [← Context.mem_parentsOf, parents, listed] at feeds
    simp at feeds
  · intro batched
    obtain ⟨attempt, made, named, _⟩ := batched
    exact uncalled attempt made named

end WiredViews
