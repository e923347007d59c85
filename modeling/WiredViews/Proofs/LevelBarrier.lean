import WiredViews.Proofs.Containment
import WiredViews.Proofs.LevelBatches
import WiredViews.Proofs.Timing

-- The calls of one level have all ended before one of the next starts, and with levels by
-- longest path every service has one turn.
namespace WiredViews

def CallEvent.provider : CallEvent → String
  | .started provider | .ended provider => provider

def CallEvent.start? : CallEvent → Option String
  | .started provider => some provider
  | .ended _ => none

section Events

def Attempt.firstEvents (attempt : Attempt) : List CallEvent :=
  if attempt.called then
    .started attempt.group.provider :: if attempt.delay = 0 then [.ended attempt.group.provider] else []
  else []

def Attempt.laterEvents (attempt : Attempt) : List CallEvent :=
  if attempt.called && 0 < attempt.delay then [.ended attempt.group.provider] else []

theorem filter_flatMap {α β : Type} (keep : α → Bool) (read : α → List β) (items : List α) :
    (items.filter keep).flatMap read = items.flatMap fun item => if keep item then read item else [] := by
  induction items with
  | nil => rfl
  | cons item rest ih => cases kept : keep item <;> simp [kept, ih]

theorem events_eq (round : Round) : round.events =
    round.attempts.flatMap Attempt.firstEvents ++ round.settled.flatMap Attempt.laterEvents := by
  unfold Round.events Round.startEvents
  rw [List.map_eq_flatMap, filter_flatMap, filter_flatMap]
  rfl

theorem settled_perm {round : Round} (calm : round.fatal? = none) : round.settled.Perm round.attempts := by
  have none_fatal : round.firstFatal? = none := by
    unfold Round.firstFatal?
    rw [earliest_eq_none, List.filter_eq_nil_iff]
    simpa using fatal?_eq_none.mp calm
  have all_settled : round.attempts.filter round.isSettled = round.attempts := by
    rw [List.filter_eq_self]
    intro attempt _
    simp only [Round.isSettled, none_fatal]
  unfold Round.settled
  rw [all_settled]
  exact List.mergeSort_perm _ _

theorem filter_events {attempts : List Attempt} {read : Attempt → List CallEvent}
    (once : (attempts.map fun attempt => attempt.group.provider).Nodup)
    (own : ∀ attempt, ∀ event ∈ read attempt, event.provider = attempt.group.provider) {attempt : Attempt}
    (made : attempt ∈ attempts) :
    (attempts.flatMap read).filter (fun event => event.provider = attempt.group.provider) = read attempt := by
  induction attempts with
  | nil => cases made
  | cons first rest ih =>
    rw [List.map_cons, List.nodup_cons] at once
    rw [List.flatMap_cons, List.filter_append]
    rcases List.mem_cons.mp made with rfl | later
    · have kept : (read attempt).filter (fun event => event.provider = attempt.group.provider) = read attempt :=
        List.filter_eq_self.mpr fun event seen => by simpa using own attempt event seen
      have dropped : (rest.flatMap read).filter (fun event => event.provider = attempt.group.provider) = [] := by
        rw [List.filter_eq_nil_iff]
        intro event seen same
        obtain ⟨other, remade, listed⟩ := List.mem_flatMap.mp seen
        rw [own other event listed, decide_eq_true_eq] at same
        exact once.1 (same ▸ List.mem_map_of_mem (f := fun attempt => attempt.group.provider) remade)
      rw [kept, dropped, List.append_nil]
    · have dropped : (read first).filter (fun event => event.provider = attempt.group.provider) = [] := by
        rw [List.filter_eq_nil_iff]
        intro event seen same
        rw [own first event seen, decide_eq_true_eq] at same
        exact once.1 (same ▸ List.mem_map_of_mem (f := fun attempt => attempt.group.provider) later)
      rw [dropped, List.nil_append, ih once.2 later]

theorem firstEvents_own (attempt : Attempt) :
    ∀ event ∈ attempt.firstEvents, attempt.called = true ∧ event.provider = attempt.group.provider := by
  unfold Attempt.firstEvents
  split <;> rename_i called
  · split <;> simp [called, CallEvent.provider]
  · simp

theorem laterEvents_own (attempt : Attempt) :
    ∀ event ∈ attempt.laterEvents, attempt.called = true ∧ event.provider = attempt.group.provider := by
  unfold Attempt.laterEvents
  split <;> rename_i called
  · simpa [CallEvent.provider] using (Bool.and_eq_true_iff.mp called).1
  · simp

theorem events_whole (attempt : Attempt) : attempt.firstEvents ++ attempt.laterEvents =
    if attempt.called then [.started attempt.group.provider, .ended attempt.group.provider] else [] := by
  unfold Attempt.firstEvents Attempt.laterEvents
  cases attempt.called with
  | false => rfl
  | true =>
    by_cases prompt : attempt.delay = 0
    · simp [prompt]
    · simp [prompt, Nat.pos_of_ne_zero prompt]

structure Round.Logged (round : Round) : Prop where
  starts : round.events.filterMap CallEvent.start? =
    (round.attempts.filter Attempt.called).map fun attempt => attempt.group.provider
  whole : ∀ attempt ∈ round.attempts,
    (round.events.filter fun event => event.provider = attempt.group.provider) =
      if attempt.called then [.started attempt.group.provider, .ended attempt.group.provider] else []
  own : ∀ event ∈ round.events, ∃ attempt ∈ round.attempts,
    attempt.called = true ∧ event.provider = attempt.group.provider

theorem starts_eq (round : Round) : round.events.filterMap CallEvent.start? =
    (round.attempts.filter Attempt.called).map fun attempt => attempt.group.provider := by
  have first : ∀ attempt : Attempt, attempt.firstEvents.filterMap CallEvent.start? =
      if attempt.called then [attempt.group.provider] else [] := by
    intro attempt
    unfold Attempt.firstEvents
    split
    · split <;> rfl
    · rfl
  have later : ∀ attempt : Attempt, attempt.laterEvents.filterMap CallEvent.start? = [] := by
    intro attempt
    unfold Attempt.laterEvents
    split <;> rfl
  rw [events_eq, List.filterMap_append, List.filterMap_flatMap, List.filterMap_flatMap]
  simp only [first, later]
  rw [List.map_eq_flatMap, filter_flatMap]
  simp

theorem calm_logged {round : Round} (calm : round.fatal? = none)
    (once : (round.attempts.map fun attempt => attempt.group.provider).Nodup) : round.Logged := by
  have perm := settled_perm calm
  refine ⟨starts_eq round, fun attempt made => ?_, fun event seen => ?_⟩
  · have settled_once : (round.settled.map fun attempt => attempt.group.provider).Nodup :=
      (perm.map _).nodup_iff.mpr once
    rw [events_eq, List.filter_append,
      filter_events once (fun attempt event seen => (firstEvents_own attempt event seen).2) made,
      filter_events settled_once (fun attempt event seen => (laterEvents_own attempt event seen).2)
        (perm.mem_iff.mpr made), events_whole]
  · rw [events_eq, List.mem_append, List.mem_flatMap, List.mem_flatMap] at seen
    rcases seen with ⟨attempt, made, listed⟩ | ⟨attempt, settled, listed⟩
    · exact ⟨attempt, made, firstEvents_own attempt event listed⟩
    · exact ⟨attempt, perm.mem_iff.mp settled, laterEvents_own attempt event listed⟩

end Events

namespace Context
variable {context : Context} {providers : Providers} {policy : Policy} {world : World} {overrides : Record}

-- Who has failed and who was left out between two levels, with the number of levels behind.
structure Divided (context : Context) (count : Nat) (progress : Progress) : Prop where
  failed : ∀ name ∈ progress.failed, context.rankOf name < count
  skipped : ∀ name ∈ progress.skipped, context.rankOf name < count
  apart : progress.failed.Disjoint progress.skipped

section Step
variable {count : Nat} {level : Level} {progress : Progress}

theorem mem_left_out {name : String} : name ∈ (progress.leaveOut level).skipped ↔
    name ∈ progress.skipped ∨
      ∃ group ∈ level.groups, ∃ member ∈ group.members, member.name ∈ progress.pruned ∧ member.name = name := by
  unfold Progress.leaveOut
  simp only [List.mem_append, List.mem_flatMap, List.mem_map, List.mem_filter, Progress.isPruned,
    List.contains_iff_mem, and_assoc]

theorem mem_idleNames {attempts : List Attempt} {name : String} :
    name ∈ attempts.flatMap Attempt.idleNames ↔
      ∃ attempt ∈ attempts, attempt.outcome = .placeholder ∧ name ∈ attempt.group.names := by
  rw [List.mem_flatMap]
  refine exists_congr fun attempt => and_congr_right fun _ => ?_
  unfold Attempt.idleNames
  cases attempt.outcome <;> simp

variable (layered : context.Layered providers policy)
  (place : (context.plan providers policy).levels[count]? = some level)
include layered place

theorem Divided.left_out (before : context.Divided count progress) {name : String}
    (listed : name ∈ (progress.leaveOut level).skipped) :
    name ∉ progress.failed ∧ (context.rankOf name < count ∨ context.rankOf name = count ∧ name ∈ progress.pruned) := by
  rcases mem_left_out.mp listed with old | ⟨group, grouped, member, inside, pruned, rfl⟩
  · exact ⟨fun failed => before.apart failed old, Or.inl (before.skipped name old)⟩
  · have rank := (level_member layered place grouped inside).2
    refine ⟨fun failed => ?_, Or.inr ⟨rank, pruned⟩⟩
    have lower := before.failed _ failed
    omega

theorem round_idle {name : String}
    (listed : name ∈ ((context.plan providers policy).roundOf world progress level).attempts.flatMap
      Attempt.idleNames) :
    context.rankOf name = count ∧
      name ∉ ((context.plan providers policy).roundOf world progress level).attempts.flatMap
        Attempt.failedNames := by
  obtain ⟨attempt, made, idle, named⟩ := mem_idleNames.mp listed
  obtain ⟨member, inside, rfl⟩ := List.mem_map.mp named
  refine ⟨(candidate_member layered place (round_candidate made) inside).2.1, fun failed => ?_⟩
  obtain ⟨other, remade, ⟨failure, outcome⟩, renamed⟩ := mem_failedNames.mp failed
  rw [layered.timely.round_apart place made remade named renamed, outcome] at idle
  cases idle

theorem divided_pass (before : context.Divided count progress) :
    context.Divided (count + 1) ((context.plan providers policy).pass world overrides progress level) := by
  constructor
  case failed =>
    rw [pass_failed]
    intro name listed
    rcases List.mem_append.mp listed with old | new
    · exact Nat.lt_succ_of_lt (before.failed name old)
    · exact Nat.lt_succ_of_le (Nat.le_of_eq (round_failed layered place new).2.1)
  case skipped =>
    rw [pass_skipped]
    intro name listed
    rcases List.mem_append.mp listed with out | idle
    · rcases (before.left_out layered place out).2 with old | ⟨new, _⟩ <;> omega
    · exact Nat.lt_succ_of_le (Nat.le_of_eq (round_idle layered place idle).1)
  case apart =>
    rw [pass_failed, pass_skipped]
    intro name failed skipped
    rcases List.mem_append.mp failed with old | new <;> rcases List.mem_append.mp skipped with out | idle
    · exact (before.left_out layered place out).1 old
    · have lower := before.failed name old
      have rank := (round_idle layered place idle).1
      omega
    · obtain ⟨_, rank, left⟩ := round_failed layered place new
      rcases (before.left_out layered place out).2 with lower | ⟨_, pruned⟩
      · omega
      · exact left pruned
    · exact (round_idle layered place idle).2 new

end Step

structure OneTurn (run : Run) (result : RunResult) : Prop where
  once : (run.progress.attempts.flatMap fun attempt => attempt.group.names).Nodup
  failed : result.failed.Nodup
  skipped : result.skipped.Nodup
  apart : result.failed.Disjoint result.skipped

theorem returned_apart (layered : context.Layered providers policy) {tally : Tally} {result : RunResult}
    (returned : ((context.plan providers policy).run world overrides tally).result = .ok result) :
    result.failed.Disjoint result.skipped := by
  obtain ⟨passed, progress, passes, within, ended⟩ := run_ended returned
  have divided : context.Divided passed.length progress := passes.invariant within ⟨nofun, nofun, nofun⟩
    fun _ _ _ place before _ => divided_pass layered place before
  rw [run_result_eq returned]
  intro name failed skipped
  have lost := mem_distinct.mp failed
  have out := mem_distinct.mp skipped
  cases ended with
  | inl completed =>
    rw [completed.2] at lost out
    exact divided.apart lost out
  | inr stopped =>
    obtain ⟨level, place, _, equal⟩ := stopped
    rw [equal] at lost out
    exact (divided.left_out layered place out).1 lost

structure RunBatches (context : Context) (plan : Plan) (world : World) (overrides : Record) (run : Run)
    (result : RunResult) : Prop where
  executed : ∀ index, index < result.levelsExecuted ↔
    ∃ round ∈ run.progress.rounds, round.index = index ∧ round.attempts ≠ []
  levels : ∀ (index : Nat) (round : Round), run.progress.rounds[index]? = some round → ∃ level : Level,
    plan.levels[index]? = some level ∧ level.index = index ∧
      context.LevelGroups plan overrides level (run.progress.rounds.take index) round
  invoked : ∀ attempt ∈ run.progress.attempts, Invoked plan.providers world attempt
  barrier : ∀ (index : Nat) (round : Round), run.progress.rounds[index]? = some round → round.Logged ∧
    run.events = (run.progress.rounds.take index).flatMap Round.events ++ round.events ++
      (run.progress.rounds.drop (index + 1)).flatMap Round.events

theorem executed_iff (timely : context.Timely providers (context.plan providers policy)) {tally : Tally} (index : Nat) :
    index < ((context.plan providers policy).run world overrides tally).progress.rounds.length ↔
      ∃ round ∈ ((context.plan providers policy).run world overrides tally).progress.rounds,
        round.index = index ∧ round.attempts ≠ [] := by
  constructor
  · intro within
    have listed := List.getElem?_eq_getElem within
    obtain ⟨level, _, number, groups⟩ := run_groups timely listed
    exact ⟨_, List.mem_of_getElem? listed, groups.index.trans number, groups.busy⟩
  · rintro ⟨round, member, rfl, _⟩
    obtain ⟨index, listed⟩ := List.getElem?_of_mem member
    obtain ⟨level, _, number, groups⟩ := run_groups timely listed
    rw [groups.index, number]
    exact (List.getElem?_eq_some_iff.mp listed).1

theorem events_split (run : Run) {index : Nat} {round : Round}
    (listed : run.progress.rounds[index]? = some round) :
    run.events = (run.progress.rounds.take index).flatMap Round.events ++ round.events ++
      (run.progress.rounds.drop (index + 1)).flatMap Round.events := by
  obtain ⟨within, rfl⟩ := List.getElem?_eq_some_iff.mp listed
  unfold Run.events
  rw [← List.flatMap_singleton Round.events, ← List.flatMap_append, ← List.flatMap_append,
    List.append_assoc, List.singleton_append, ← List.drop_eq_getElem_cons within, List.take_append_drop]

theorem run_batches {plan : Plan} {tally : Tally} {result : RunResult}
    (accepted : Plan.build context providers policy = .ok plan)
    (returned : (plan.run world overrides tally).result = .ok result) :
    context.RunBatches plan world overrides (plan.run world overrides tally) result ∧
      (policy.levels = .longestPath → OneTurn (plan.run world overrides tally) result) := by
  obtain ⟨rfl, timely⟩ := build_timely accepted
  have calm := run_calm returned
  have same := run_result_eq returned
  refine ⟨⟨fun index => ?_, fun index round listed => run_groups timely listed, fun attempt made => ?_,
    fun index round listed => ⟨?_, events_split _ listed⟩⟩, fun longest => ?_⟩
  · rw [same]
    exact executed_iff timely index
  · obtain ⟨round, member, inside⟩ := List.mem_flatMap.mp made
    exact run_invoked timely made (calm_not_rejected (calm round member) inside)
  · obtain ⟨_, _, _, groups⟩ := run_groups timely listed
    exact calm_logged (calm round (List.mem_of_getElem? listed)) groups.once
  · have layered := (build_layered accepted longest).2
    obtain ⟨_, _, consistent, reached⟩ := returned_consistent layered returned
    have once : (((context.plan providers policy).run world overrides tally).progress.attempts.flatMap
        fun attempt => attempt.group.names).Nodup := by
      rw [reached.attempts]
      exact consistent.once
    refine ⟨once, ?_, ?_, returned_apart layered returned⟩ <;> rw [same]
    · exact nodup_distinct _
    · exact nodup_distinct _

end Context

def connection : Context where
  bindings := Table.ofList [("start", .constant "Oslo"), ("stop", .reference "out" "goal"),
    ("port", .reference "over" "goal"), ("end", .reference "on" "goal")]
  services := Table.ofList [("out", ⟨"Trip", [⟨"from", "start"⟩]⟩), ("over", ⟨"Ferry", [⟨"from", "start"⟩]⟩),
    ("on", ⟨"Ferry", [⟨"from", "port"⟩]⟩)]

def railStrike : World := fun number =>
  if number = 0 then strike number else delayed (fun _ => 1) number

theorem connection_batches : ∃ result,
    ((connection.plan seaways .standard).run railStrike ∅ .none).result = .ok result ∧
    result.failed = ["out"] ∧ result.levelsExecuted = 2 ∧
    (((connection.plan seaways .standard).run railStrike ∅ .none).progress.rounds.map fun round =>
      round.attempts.map Attempt.delay) = [[0, 1], [1]] ∧
    connection.RunBatches (connection.plan seaways .standard) railStrike ∅
      ((connection.plan seaways .standard).run railStrike ∅ .none) result ∧
    Context.OneTurn ((connection.plan seaways .standard).run railStrike ∅ .none) result := by
  have returned : ((connection.plan seaways .standard).run railStrike ∅ .none).result =
      .ok ((connection.plan seaways .standard).run railStrike ∅ .none).progress.result := by
    with_unfolding_all rfl
  obtain ⟨batches, one_turn⟩ := Context.run_batches
    (show Plan.build connection seaways .standard = .ok _ from rfl) returned
  exact ⟨_, returned, by decide +kernel, by decide +kernel, by decide +kernel, batches, one_turn rfl⟩

end WiredViews
