import WiredViews.Proofs.RecordDomain

-- What a run that returns says of each service: that it was resolved, failed or skipped. It
-- says nothing of the services on levels above the one where it stops.
namespace WiredViews

inductive Standing where
  | resolved
  | failed
  | skipped
deriving DecidableEq

def Outcome.standing? : Outcome → Option Standing
  | .resolved _ => some .resolved
  | .failed _ => some .failed
  | .placeholder => some .skipped
  | .rejected _ | .mistyped _ => none

def Progress.Lists (progress : Progress) (name : String) : Standing → Prop
  | .resolved => progress.Resolved name
  | .failed => name ∈ progress.failed
  | .skipped => name ∈ progress.skipped

def Run.Lists (run : Run) (result : RunResult) (name : String) : Standing → Prop
  | .resolved => run.progress.Resolved name
  | .failed => name ∈ result.failed
  | .skipped => name ∈ result.skipped

def Run.Visits (run : Run) (level : Level) : Prop :=
  ∀ index, run.ending = .stopped index → level.index ≤ index

-- What is said of a service at a level: of those pruned before nothing but that, of the
-- others what has become of their group.
inductive Plan.Enters (plan : Plan) (world : World) (progress : Progress) (level : Level) (name : String) :
    Standing → Prop where
  | leftOut {group : Group} {member : Member} (grouped : group ∈ level.groups) (listed : member ∈ group.members)
      (named : member.name = name) (pruned : name ∈ progress.pruned) : Enters plan world progress level name .skipped
  | attempted {attempt : Attempt} {standing : Standing}
      (made : attempt ∈ (plan.roundOf world progress level).attempts) (named : name ∈ attempt.group.names)
      (ended : attempt.outcome.standing? = some standing) : Enters plan world progress level name standing

theorem standing_resolved {outcome : Outcome} :
    outcome.standing? = some .resolved ↔ ∃ records, outcome = .resolved records := by
  cases outcome <;> simp [Outcome.standing?]

theorem standing_failed {outcome : Outcome} :
    outcome.standing? = some .failed ↔ ∃ failure, outcome = .failed failure := by
  cases outcome <;> simp [Outcome.standing?]

theorem standing_skipped {outcome : Outcome} :
    outcome.standing? = some .skipped ↔ outcome = .placeholder := by
  cases outcome <;> simp [Outcome.standing?]

theorem standing_of_calm {round : Round} (calm : round.fatal? = none) {attempt : Attempt}
    (made : attempt ∈ round.attempts) : ∃ standing, attempt.outcome.standing? = some standing := by
  have quiet := fatal?_eq_none.mp calm attempt made
  cases ended : attempt.outcome with
  | resolved | failed | placeholder => exact ⟨_, rfl⟩
  | rejected | mistyped => simp [Attempt.isFatal, Outcome.fatal?, ended] at quiet

namespace Context
variable {context : Context} {providers : Providers} {policy : Policy} {world : World} {overrides : Record}

section Entries
variable {plan : Plan} {progress : Progress} {level : Level} {name : String} {standing : Standing}

theorem enters_iff : plan.Enters world progress level name standing ↔
    (standing = .skipped ∧
      ∃ group ∈ level.groups, ∃ member ∈ group.members, member.name ∈ progress.pruned ∧ member.name = name) ∨
    ∃ attempt ∈ (plan.roundOf world progress level).attempts,
      attempt.outcome.standing? = some standing ∧ name ∈ attempt.group.names := by
  constructor
  · intro enters
    cases enters with
    | leftOut grouped listed named pruned =>
      subst named
      exact Or.inl ⟨rfl, _, grouped, _, listed, pruned, rfl⟩
    | attempted made named ended => exact Or.inr ⟨_, made, ended, named⟩
  · intro given
    rcases given with ⟨rfl, group, grouped, member, listed, pruned, rfl⟩ | ⟨attempt, made, ended, named⟩
    · exact .leftOut grouped listed rfl pruned
    · exact .attempted made named ended

theorem lists_pass : (plan.pass world overrides progress level).Lists name standing ↔
    progress.Lists name standing ∨ plan.Enters world progress level name standing := by
  rw [enters_iff]
  cases standing with
  | resolved =>
    simp only [Progress.Lists, Progress.Resolved, pass_attempts, List.mem_append, or_and_right, exists_or,
      standing_resolved, reduceCtorEq, false_and, false_or]
  | failed =>
    simp only [Progress.Lists, pass_failed, List.mem_append, mem_failedNames, standing_failed, reduceCtorEq,
      false_and, false_or]
  | skipped =>
    simp only [Progress.Lists, pass_skipped, List.mem_append, mem_left_out, mem_idleNames, standing_skipped,
      true_and, or_assoc]

theorem lists_left_out (idle : progress.candidates level = []) :
    (progress.leaveOut level).Lists name standing ↔
      (plan.pass world overrides progress level).Lists name standing := by
  have silent : (plan.roundOf world progress level).attempts = [] := by
    unfold Plan.roundOf
    rw [idle]
    rfl
  have same : (plan.pass world overrides progress level).attempts = (progress.leaveOut level).attempts := by
    rw [pass_attempts, silent, List.append_nil]
    rfl
  cases standing with
  | resolved => rw [Progress.Lists, Progress.Lists, Progress.Resolved, Progress.Resolved, same]
  | failed =>
    rw [Progress.Lists, Progress.Lists, pass_failed, silent, List.flatMap_nil, List.append_nil]
    rfl
  | skipped => rw [Progress.Lists, Progress.Lists, pass_skipped, silent, List.flatMap_nil, List.append_nil]

end Entries

structure Standings (context : Context) (count : Nat) (progress : Progress) : Prop where
  behind : ∀ name standing, progress.Lists name standing →
    name ∈ context.services.keys ∧ context.rankOf name < count
  once : ∀ name ∈ context.services.keys, context.rankOf name < count → ∃! standing, progress.Lists name standing
  pruned : ∀ name ∈ context.services.keys, context.rankOf name < count → name ∈ progress.pruned →
    progress.Lists name .skipped

theorem standings_start {plan : Plan} (tally : Tally) : context.Standings 0 (.start plan overrides tally) := by
  refine ⟨fun name standing listed => ?_, fun _ _ low => absurd low (Nat.not_lt_zero _),
    fun _ _ low => absurd low (Nat.not_lt_zero _)⟩
  cases standing with
  | resolved => simp [Progress.Lists, Progress.Resolved, Progress.attempts, Progress.start] at listed
  | failed | skipped => cases listed

section Step
variable {count : Nat} {level : Level} {progress : Progress} {name : String} {standing : Standing}
  (layered : context.Layered providers policy)
  (place : (context.plan providers policy).levels[count]? = some level)
include layered place

theorem enters_rank (enters : (context.plan providers policy).Enters world progress level name standing) :
    name ∈ context.services.keys ∧ context.rankOf name = count := by
  cases enters with
  | leftOut grouped listed named pruned =>
    obtain ⟨held, rank⟩ := level_member layered place grouped listed
    exact named ▸ ⟨Table.mem_keys.mpr ⟨_, held⟩, rank⟩
  | attempted made named ended =>
    obtain ⟨member, listed, rfl⟩ := List.mem_map.mp named
    obtain ⟨held, rank, _⟩ := candidate_member layered place (round_candidate made) listed
    exact ⟨Table.mem_keys.mpr ⟨_, held⟩, rank⟩

theorem enters_pruned (known : name ∈ context.services.keys) (rank : context.rankOf name = count)
    (pruned : name ∈ progress.pruned) :
    (context.plan providers policy).Enters world progress level name .skipped := by
  obtain ⟨there, found, group, grouped, member, listed, named⟩ := layered.timely.covered name known
  rw [rank, place] at found
  cases found
  exact .leftOut grouped listed named pruned

-- Each service of a level gets one entry there: no group is made for those pruned, and
-- no two groups of the level share a service.
theorem enters_once (calm : ((context.plan providers policy).roundOf world progress level).fatal? = none)
    (known : name ∈ context.services.keys) (rank : context.rankOf name = count) :
    ∃! standing, (context.plan providers policy).Enters world progress level name standing := by
  by_cases pruned : name ∈ progress.pruned
  · refine ⟨.skipped, enters_pruned layered place known rank pruned, fun other enters => ?_⟩
    cases enters with
    | leftOut => rfl
    | attempted made named ended =>
      obtain ⟨member, listed, rfl⟩ := List.mem_map.mp named
      exact absurd pruned (candidate_member layered place (round_candidate made) listed).2.2
  · obtain ⟨group, candidate, named⟩ := candidate_covers layered place known rank pruned
    rw [← round_groups (context.plan providers policy) world] at candidate
    obtain ⟨attempt, made, rfl⟩ := List.mem_map.mp candidate
    obtain ⟨standing, ended⟩ := standing_of_calm calm made
    refine ⟨standing, .attempted made named ended, fun other enters => ?_⟩
    cases enters with
    | leftOut grouped listed same inside => exact absurd inside pruned
    | attempted remade renamed reended =>
      have same := layered.timely.round_apart place made remade named renamed
      subst same
      exact Option.some.inj (reended.symm.trans ended)

theorem standings_pass (before : context.Standings count progress)
    (calm : ((context.plan providers policy).roundOf world progress level).fatal? = none) :
    context.Standings (count + 1) ((context.plan providers policy).pass world overrides progress level) := by
  constructor
  case behind =>
    intro name standing listed
    cases lists_pass.mp listed with
    | inl old =>
      obtain ⟨known, low⟩ := before.behind name standing old
      exact ⟨known, Nat.lt_succ_of_lt low⟩
    | inr new =>
      obtain ⟨known, rank⟩ := enters_rank layered place new
      exact ⟨known, Nat.lt_succ_of_le (Nat.le_of_eq rank)⟩
  case once =>
    intro name known within
    simp only [lists_pass]
    by_cases top : context.rankOf name = count
    · have fresh : ∀ standing, ¬ progress.Lists name standing := by
        intro standing listed
        have low := (before.behind name standing listed).2
        omega
      simpa only [fresh, false_or] using enters_once layered place calm known top
    · have settled : ∀ standing,
          ¬ (context.plan providers policy).Enters world progress level name standing :=
        fun standing enters => top (enters_rank layered place enters).2
      simpa only [settled, or_false] using before.once name known (by omega)
  case pruned =>
    intro name known within pruned
    -- nobody on a level behind is pruned later
    have early : name ∈ progress.pruned := by
      by_contra spared
      exact spared_pass layered place (Nat.le_of_lt_succ within) spared pruned
    refine lists_pass.mpr ?_
    by_cases top : context.rankOf name = count
    · exact Or.inr (enters_pruned layered place known top early)
    · exact Or.inl (before.pruned name known (by omega) early)

end Step

-- The services that a run that returns has had an eye on, and the others.
structure Reviewed (context : Context) (plan : Plan) (run : Run) (result : RunResult) (count : Nat) : Prop where
  visits : ∀ level ∈ plan.levels, run.Visits level ↔ level.index < count
  once : ∀ name ∈ context.services.keys, context.rankOf name < count → ∃! standing, run.Lists result name standing
  pruned : ∀ name ∈ context.services.keys, context.rankOf name < count → plan.Cut result.failed name →
    run.Lists result name .skipped
  beyond : ∀ name ∈ context.services.keys, count ≤ context.rankOf name →
    plan.Cut result.failed name ∧ ∀ standing, ¬ run.Lists result name standing

section Returned

theorem lists_result {run : Run} {name : String} {standing : Standing} :
    run.Lists run.progress.result name standing ↔ run.progress.Lists name standing := by
  cases standing with
  | resolved => rfl
  | failed | skipped => exact mem_distinct

theorem cut_result {plan : Plan} {progress : Progress} {name : String} :
    plan.Cut progress.result.failed name ↔ plan.Cut progress.failed name :=
  exists_congr fun _ => and_congr_left fun _ => mem_distinct

variable {count : Nat} {progress : Progress} (layered : context.Layered providers policy)
  (contained : context.Contained (context.plan providers policy) overrides count progress)
  (standings : context.Standings count progress)
include layered contained standings

theorem reviewed_completed (past : (context.plan providers policy).levels.length = count) :
    context.Reviewed (context.plan providers policy) ⟨progress, .completed⟩ progress.result count := by
  constructor
  case visits =>
    intro level listed
    exact ⟨fun _ => past ▸ level_within listed, fun _ _ stopped => nomatch stopped⟩
  case once =>
    intro name known low
    exact (existsUnique_congr fun _ => lists_result).mpr (standings.once name known low)
  case pruned =>
    intro name known low cut
    exact lists_result.mpr (standings.pruned name known low ((contained.pruned name).mpr (cut_result.mp cut)))
  case beyond =>
    intro name known high
    have inside := rank_lt_levels layered.settled known
    rw [← levels_length layered.longest, past] at inside
    omega

theorem reviewed_stopped (world : World) {level : Level}
    (place : (context.plan providers policy).levels[count]? = some level) (idle : progress.candidates level = []) :
    context.Reviewed (context.plan providers policy) ⟨progress.leaveOut level, .stopped level.index⟩
      (progress.leaveOut level).result (count + 1) := by
  have calm : ((context.plan providers policy).roundOf world progress level).fatal? = none := by
    unfold Plan.roundOf
    rw [idle]
    rfl
  have further : context.Standings (count + 1)
      ((context.plan providers policy).pass world overrides progress level) :=
    standings_pass layered place standings calm
  have same : ∀ name standing, Run.Lists ⟨progress.leaveOut level, .stopped level.index⟩
      (progress.leaveOut level).result name standing ↔
        ((context.plan providers policy).pass world overrides progress level).Lists name standing :=
    fun name standing => lists_result.trans (lists_left_out idle)
  have ended : Run.Ended ⟨progress.leaveOut level, .stopped level.index⟩ (context.plan providers policy) count progress :=
    Or.inr ⟨level, place, idle, rfl⟩
  constructor
  case visits =>
    intro other listed
    rw [← level_index place]
    constructor
    · intro visits
      exact Nat.lt_succ_of_le (visits level.index rfl)
    · intro low index here
      cases here
      exact Nat.le_of_lt_succ low
  case once =>
    intro name known low
    exact (existsUnique_congr (same name)).mpr (further.once name known low)
  case pruned =>
    intro name known low cut
    have pruned := (contained.pruned name).mpr (cut_result.mp cut)
    refine (same name .skipped).mpr (further.pruned name known low ?_)
    rw [pass_pruned]
    exact List.mem_append_left _ pruned
  case beyond =>
    intro name known high
    have pruned := contained.beyond layered ended.reaches known (Nat.le_of_succ_le high)
    refine ⟨cut_result.mpr ((contained.pruned name).mp pruned), fun standing listed => ?_⟩
    have low := (further.behind name standing ((same name standing).mp listed)).2
    omega

end Returned

theorem run_reviewed (layered : context.Layered providers policy) (transitive : policy.cascade = .transitive)
    {tally : Tally} {result : RunResult}
    (returned : ((context.plan providers policy).run world overrides tally).result = .ok result) :
    ∃ count, context.Reviewed (context.plan providers policy)
      ((context.plan providers policy).run world overrides tally) result count := by
  obtain ⟨passed, progress, passes, within, ended⟩ := run_ended returned
  have contained : context.Contained (context.plan providers policy) overrides passed.length progress :=
    passes.invariant within (contained_start tally)
      fun _ _ _ place before calm => contained_pass layered transitive place before calm
  have standings : context.Standings passed.length progress := passes.invariant within (standings_start tally)
    fun _ _ _ place before calm => standings_pass layered place before calm
  rw [run_result_eq returned]
  rcases ended with ⟨past, equal⟩ | ⟨level, place, idle, equal⟩
  · rw [equal]
    exact ⟨_, reviewed_completed layered contained standings past⟩
  · rw [equal]
    exact ⟨_, reviewed_stopped layered contained standings world place idle⟩

structure Accounts (context : Context) (plan : Plan) (run : Run) (result : RunResult) : Prop where
  placed : ∀ name, name ∈ context.services.keys ↔ ∃ level ∈ plan.levels, name ∈ level.names
  visited : ∀ level ∈ plan.levels, run.Visits level → ∀ name ∈ level.names,
    (∃! standing, run.Lists result name standing) ∧
      (plan.Cut result.failed name → run.Lists result name .skipped)
  unvisited : ∀ level ∈ plan.levels, ¬ run.Visits level → ∀ name ∈ level.names,
    plan.Cut result.failed name ∧ ∀ standing, ¬ run.Lists result name standing
  complete : (∀ name ∈ context.services.keys, ∃! standing, run.Lists result name standing) ↔
    ∀ level ∈ plan.levels, run.Visits level

theorem run_accounts {plan : Plan} {tally : Tally} {result : RunResult}
    (accepted : Plan.build context providers policy = .ok plan) (longest : policy.levels = .longestPath)
    (transitive : policy.cascade = .transitive)
    (returned : (plan.run world overrides tally).result = .ok result) :
    context.Accounts plan (plan.run world overrides tally) result := by
  obtain ⟨rfl, layered⟩ := build_layered accepted longest
  obtain ⟨count, reviewed⟩ := run_reviewed layered transitive returned
  constructor
  case placed => exact fun name => mem_services_iff layered
  case visited =>
    intro level listed visits name named
    obtain ⟨known, rank⟩ := (mem_level_iff layered listed).mp named
    have low := (reviewed.visits level listed).mp visits
    rw [← rank] at low
    exact ⟨reviewed.once name known low, reviewed.pruned name known low⟩
  case unvisited =>
    intro level listed above name named
    obtain ⟨known, rank⟩ := (mem_level_iff layered listed).mp named
    refine reviewed.beyond name known (Nat.le_of_not_lt fun low => above ?_)
    exact (reviewed.visits level listed).mpr (rank ▸ low)
  case complete =>
    constructor
    · intro all level listed
      have inside := level_within listed
      rw [levels_length layered.longest] at inside
      obtain ⟨name, known, rank⟩ := level_filled layered.declared layered.settled inside
      refine (reviewed.visits level listed).mpr ?_
      rw [← rank]
      by_contra high
      obtain ⟨standing, lists, _⟩ := all name known
      exact (reviewed.beyond name known (Nat.le_of_not_lt high)).2 standing lists
    · intro all name known
      obtain ⟨level, listed, named⟩ := (mem_services_iff layered).mp known
      obtain ⟨_, rank⟩ := (mem_level_iff layered listed).mp named
      have low := (reviewed.visits level listed).mp (all level listed)
      exact reviewed.once name known (rank ▸ low)

end Context

def voyage : Context where
  bindings := Table.ofList [("start", .constant "Oslo"), ("stop", .reference "out" "goal"),
    ("port", .reference "over" "goal"), ("end", .reference "on" "goal")]
  services := Table.ofList [("out", ⟨"Trip", [⟨"from", "start"⟩]⟩), ("over", ⟨"Ferry", [⟨"from", "stop"⟩]⟩),
    ("on", ⟨"Ferry", [⟨"from", "port"⟩]⟩)]

theorem voyage_accounts : ∃ result,
    ((voyage.plan seaways .standard).run railStrike ∅ .none).result = .ok result ∧
    result.failed = ["out"] ∧ result.skipped = ["over"] ∧
    voyage.Accounts (voyage.plan seaways .standard)
      ((voyage.plan seaways .standard).run railStrike ∅ .none) result := by
  have returned : ((voyage.plan seaways .standard).run railStrike ∅ .none).result =
      .ok ((voyage.plan seaways .standard).run railStrike ∅ .none).progress.result := by
    with_unfolding_all rfl
  exact ⟨_, returned, by decide +kernel, by decide +kernel, Context.run_accounts
    (show Plan.build voyage seaways .standard = .ok _ from rfl) rfl rfl returned⟩

theorem voyage_unlisted : Plan.build voyage seaways .standard = .ok (voyage.plan seaways .standard) ∧
    ∃ result, ((voyage.plan seaways .standard).run railStrike ∅ .none).result = .ok result ∧
      "on" ∈ voyage.services.keys ∧ (voyage.plan seaways .standard).Cut result.failed "on" ∧
      ∀ standing, ¬ ((voyage.plan seaways .standard).run railStrike ∅ .none).Lists result "on" standing := by
  have uncalled : ∀ attempt ∈ ((voyage.plan seaways .standard).run railStrike ∅ .none).progress.attempts,
      "on" ∉ attempt.group.names := by
    decide +kernel
  have failed : ((voyage.plan seaways .standard).run railStrike ∅ .none).progress.result.failed = ["out"] := by
    decide +kernel
  have skipped : ((voyage.plan seaways .standard).run railStrike ∅ .none).progress.result.skipped = ["over"] := by
    decide +kernel
  have first : "over" ∈ ChildTable.childrenOf (voyage.plan seaways .standard).children "out" := by decide +kernel
  have second : "on" ∈ ChildTable.childrenOf (voyage.plan seaways .standard).children "over" := by decide +kernel
  refine ⟨rfl, ((voyage.plan seaways .standard).run railStrike ∅ .none).progress.result,
    by with_unfolding_all rfl, by decide +kernel, ?_, fun standing listed => ?_⟩
  · exact ⟨"out", failed ▸ List.mem_singleton_self _, .head first (.single second)⟩
  · cases standing with
    | resolved =>
      obtain ⟨attempt, made, _, named⟩ := listed
      exact uncalled attempt made named
    | failed => simp [Run.Lists, failed] at listed
    | skipped => simp [Run.Lists, skipped] at listed

end WiredViews
