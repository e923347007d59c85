import Mathlib.Tactic.Tauto
import WiredViews.Proofs.Replies
import WiredViews.Proofs.TableWrites
import WiredViews.Run

namespace WiredViews

section Attempts
variable {world : World} {providers : Providers} {values : Record} {tally : Tally}

theorem attempt_group (group : Group) : (attempt world providers values tally group).1.group = group := by
  unfold attempt
  dsimp only
  split
  · rfl
  · split <;> rfl

theorem attempt_batch (group : Group) :
    (attempt world providers values tally group).1.batch = group.batch values := by
  unfold attempt
  dsimp only
  split
  · rfl
  · split <;> rfl

theorem attemptAll_groups (groups : List Group) :
    (attemptAll world providers values tally groups).1.map Attempt.group = groups := by
  induction groups generalizing tally with
  | nil => rfl
  | cons group rest ih =>
    rw [attemptAll, List.map_cons, attempt_group, ih]

theorem attemptAll_made {groups : List Group} {made : Attempt}
    (member : made ∈ (attemptAll world providers values tally groups).1) :
    ∃ tally, made = (attempt world providers values tally made.group).1 := by
  induction groups generalizing tally with
  | nil => simp [attemptAll] at member
  | cons group rest ih =>
    rw [attemptAll, List.mem_cons] at member
    rcases member with rfl | later
    · exact ⟨tally, by rw [attempt_group]⟩
    · exact ih later

-- An attempt that was a call is one of the provider with this very batch, and only
-- calls are resolved.
structure Attempt.Made (world : World) (provider : Provider) (made : Attempt) : Prop where
  replied : made.called = true → ∃ number calls, provider.callback = .registered number ∧
    made.outcome = ((world number).reply calls made.batch).outcome made.group.provider
  resolved : ∀ records, made.outcome = .resolved records → made.called = true

theorem attempt_made (group : Group) : (attempt world providers values tally group).1.Made world
    (providers.getD group.provider systemProvider) := by
  unfold attempt
  dsimp only
  split
  · exact ⟨by simp, by simp⟩
  · split
    · exact ⟨by simp, by simp⟩
    · rename_i number registered
      exact ⟨fun _ => ⟨number, tally number, registered, rfl⟩, fun _ _ => rfl⟩

inductive Attempted (world : World) (provider : Provider) (values : Record) : Attempt → Prop where
  | refused {group : Group} {error : RunError} (unfit : group.error? provider.model values = some error) :
      Attempted world provider values ⟨group, group.batch values, false, .rejected error, 0⟩
  | idle {group : Group} (fit : group.error? provider.model values = none)
      (nobody : provider.callback = .placeholder) :
      Attempted world provider values ⟨group, group.batch values, false, .placeholder, 0⟩
  | called {group : Group} {number calls : Nat} (fit : group.error? provider.model values = none)
      (registered : provider.callback = .registered number) :
      Attempted world provider values ⟨group, group.batch values, true,
        ((world number).reply calls (group.batch values)).outcome group.provider,
        (world number).delay calls (group.batch values)⟩

theorem attempt_attempted (group : Group) :
    Attempted world (providers.getD group.provider systemProvider) values
      (attempt world providers values tally group).1 := by
  unfold attempt
  dsimp only
  split
  · rename_i error unfit
    exact .refused unfit
  · rename_i fit
    split
    · rename_i nobody
      exact .idle fit nobody
    · rename_i number registered
      exact .called fit registered

def Attempt.Answered (world : World) (provider : Provider) (made : Attempt) (left : Batch) (records : List Record) :
    Prop :=
  ∃ number calls, provider.callback = .registered number ∧
    ((world number).reply calls made.batch).Records left records

theorem Attempt.Made.answered {provider : Provider} {made : Attempt} {records : List Record}
    (call : made.Made world provider) (resolved : made.outcome = .resolved records) :
    ∃ left, made.Answered world provider left records := by
  obtain ⟨number, calls, registered, outcome⟩ := call.replied (call.resolved records resolved)
  obtain ⟨left, replied⟩ := outcome_exact.mp (outcome.symm.trans resolved)
  exact ⟨left, number, calls, registered, replied⟩

end Attempts

theorem earliest_eq_none {attempts : List Attempt} : earliest attempts = none ↔ attempts = [] := by
  cases attempts with
  | nil => simp [earliest]
  | cons attempt rest =>
    unfold earliest
    cases earliest rest with
    | none => simp
    | some other => dsimp only; split <;> simp

theorem earliest_mem {attempts : List Attempt} {first : Attempt} (found : earliest attempts = some first) :
    first ∈ attempts := by
  induction attempts generalizing first with
  | nil => simp [earliest] at found
  | cons attempt rest ih =>
    unfold earliest at found
    cases later : earliest rest with
    | none =>
      rw [later] at found
      simp [← Option.some.inj found]
    | some other =>
      rw [later] at found
      dsimp only at found
      split at found
      · exact List.mem_cons_of_mem _ (ih (later.trans found))
      · simp [← Option.some.inj found]

theorem fatal?_eq_none {round : Round} :
    round.fatal? = none ↔ ∀ attempt ∈ round.attempts, attempt.isFatal = false := by
  unfold Round.fatal?
  cases found : round.firstFatal? with
  | none =>
    unfold Round.firstFatal? at found
    rw [earliest_eq_none, List.filter_eq_nil_iff] at found
    simpa using found
  | some attempt =>
    obtain ⟨member, fatal⟩ := List.mem_filter.mp (earliest_mem found)
    rw [Option.bind_some, ← Option.not_isSome_iff_eq_none]
    constructor
    · intro calm
      exact absurd fatal calm
    · intro calm
      exact absurd fatal (by simp [calm attempt member])

theorem calm_not_rejected {round : Round} (calm : round.fatal? = none) {attempt : Attempt}
    (made : attempt ∈ round.attempts) (error : RunError) : attempt.outcome ≠ .rejected error := by
  intro rejected
  have quiet := fatal?_eq_none.mp calm attempt made
  simp [Attempt.isFatal, Outcome.fatal?, rejected] at quiet

def Plan.writes (plan : Plan) (overrides : Record) (attempt : Attempt) : List (String × Value) :=
  match attempt.outcome with
  | .resolved records =>
    (plan.updates attempt.group records).filter fun update => !overrides.contains update.1
  | _ => []

def Attempt.failedNames (attempt : Attempt) : List String :=
  match attempt.outcome with
  | .failed _ => attempt.group.names
  | _ => []

def Attempt.idleNames (attempt : Attempt) : List String :=
  match attempt.outcome with
  | .placeholder => attempt.group.names
  | _ => []

def Plan.givenUp (plan : Plan) (attempt : Attempt) : List String :=
  match attempt.outcome with
  | .failed _ => plan.dependents attempt.group.names
  | _ => []

theorem mem_failedNames {attempts : List Attempt} {name : String} :
    name ∈ attempts.flatMap Attempt.failedNames ↔
      ∃ attempt ∈ attempts, (∃ failure, attempt.outcome = .failed failure) ∧ name ∈ attempt.group.names := by
  rw [List.mem_flatMap]
  refine exists_congr fun attempt => and_congr_right fun _ => ?_
  unfold Attempt.failedNames
  cases attempt.outcome <;> simp

theorem settle_eq (plan : Plan) (overrides : Record) (progress : Progress) (attempt : Attempt) :
    plan.settle overrides progress attempt =
      { progress with
        values := progress.values.insertAll (plan.writes overrides attempt)
        pruned := progress.pruned ++ plan.givenUp attempt
        failed := progress.failed ++ attempt.failedNames
        skipped := progress.skipped ++ attempt.idleNames } := by
  unfold Plan.settle Plan.writes Plan.givenUp Attempt.failedNames Attempt.idleNames
  cases attempt.outcome <;> simp [Table.insertAll]

theorem settle_all_eq (plan : Plan) (overrides : Record) (progress : Progress) (attempts : List Attempt) :
    attempts.foldl (plan.settle overrides) progress =
      { progress with
        values := progress.values.insertAll (attempts.flatMap (plan.writes overrides))
        pruned := progress.pruned ++ attempts.flatMap plan.givenUp
        failed := progress.failed ++ attempts.flatMap Attempt.failedNames
        skipped := progress.skipped ++ attempts.flatMap Attempt.idleNames } := by
  induction attempts generalizing progress with
  | nil => simp [Table.insertAll]
  | cons attempt rest ih =>
    rw [List.foldl_cons, ih, settle_eq]
    simp only [List.flatMap_cons, List.append_assoc, Table.insertAll_append]

def Progress.attempts (progress : Progress) : List Attempt :=
  progress.rounds.flatMap Round.attempts

def Plan.roundOf (plan : Plan) (world : World) (progress : Progress) (level : Level) : Round :=
  ⟨level.index, (attemptAll world plan.providers progress.values progress.tally (progress.candidates level)).1⟩

def Plan.halt (plan : Plan) (world : World) (progress : Progress) (level : Level) : Progress :=
  { progress.leaveOut level with
    tally := (attemptAll world plan.providers progress.values progress.tally (progress.candidates level)).2
    rounds := progress.rounds ++ [plan.roundOf world progress level] }

def Plan.pass (plan : Plan) (world : World) (overrides : Record) (progress : Progress) (level : Level) :
    Progress :=
  (plan.roundOf world progress level).attempts.foldl (plan.settle overrides) (plan.halt world progress level)

section Pass
variable {plan : Plan} {world : World} {overrides : Record} {progress : Progress} {level : Level}

theorem pass_values : (plan.pass world overrides progress level).values =
    progress.values.insertAll
      ((plan.roundOf world progress level).attempts.flatMap (plan.writes overrides)) := by
  rw [Plan.pass, settle_all_eq]
  rfl

theorem pass_pruned : (plan.pass world overrides progress level).pruned =
    progress.pruned ++ (plan.roundOf world progress level).attempts.flatMap plan.givenUp := by
  rw [Plan.pass, settle_all_eq]
  rfl

theorem pass_failed : (plan.pass world overrides progress level).failed =
    progress.failed ++ (plan.roundOf world progress level).attempts.flatMap Attempt.failedNames := by
  rw [Plan.pass, settle_all_eq]
  rfl

theorem pass_skipped : (plan.pass world overrides progress level).skipped =
    (progress.leaveOut level).skipped ++
      (plan.roundOf world progress level).attempts.flatMap Attempt.idleNames := by
  rw [Plan.pass, settle_all_eq]
  rfl

theorem pass_rounds : (plan.pass world overrides progress level).rounds =
    progress.rounds ++ [plan.roundOf world progress level] := by
  rw [Plan.pass, settle_all_eq]
  rfl

theorem pass_attempts : (plan.pass world overrides progress level).attempts =
    progress.attempts ++ (plan.roundOf world progress level).attempts := by
  rw [Progress.attempts, pass_rounds, List.flatMap_append, List.flatMap_singleton]
  rfl

theorem mem_candidates {group : Group} :
    group ∈ progress.candidates level ↔ group.members ≠ [] ∧ ∃ whole ∈ level.groups,
      group = ⟨whole.provider, whole.members.filter fun member => !progress.isPruned member⟩ := by
  unfold Progress.candidates
  rw [List.mem_filterMap]
  constructor
  · intro given
    obtain ⟨whole, listed, kept⟩ := given
    split at kept
    · cases kept
    · rename_i members differ
      cases kept
      exact ⟨differ, whole, listed, rfl⟩
  · intro given
    obtain ⟨some_left, whole, listed, rfl⟩ := given
    refine ⟨whole, listed, ?_⟩
    split
    · rename_i none_left
      exact absurd none_left some_left
    · rfl

theorem candidates_names : ((progress.candidates level).flatMap Group.names).Sublist
    (level.groups.flatMap Group.names) := by
  unfold Progress.candidates
  induction level.groups with
  | nil => simp
  | cons group rest ih =>
    rw [List.filterMap_cons, List.flatMap_cons]
    split
    · exact ih.trans (List.sublist_append_right _ _)
    · rename_i kept found
      split at found
      · cases found
      · cases found
        exact (List.filter_sublist.map Member.name).append ih

theorem round_groups (plan : Plan) (world : World) : (plan.roundOf world progress level).attempts.map Attempt.group =
    progress.candidates level :=
  attemptAll_groups _

theorem round_names : (plan.roundOf world progress level).attempts.flatMap (fun attempt => attempt.group.names) =
    (progress.candidates level).flatMap Group.names := by
  rw [← round_groups plan world, List.flatMap_map]

theorem round_candidate {attempt : Attempt}
    (member : attempt ∈ (plan.roundOf world progress level).attempts) :
    attempt.group ∈ progress.candidates level := by
  rw [← round_groups plan world]
  exact List.mem_map_of_mem member

theorem round_batch {attempt : Attempt} (member : attempt ∈ (plan.roundOf world progress level).attempts) :
    attempt.batch = attempt.group.batch progress.values := by
  obtain ⟨tally, made⟩ := attemptAll_made member
  rw [made, attempt_batch, attempt_group]

theorem round_made {attempt : Attempt} (member : attempt ∈ (plan.roundOf world progress level).attempts) :
    attempt.Made world (plan.providers.getD attempt.group.provider systemProvider) := by
  obtain ⟨tally, made⟩ := attemptAll_made member
  have call := @attempt_made world plan.providers progress.values tally attempt.group
  rwa [← made] at call

theorem round_attempted {attempt : Attempt}
    (member : attempt ∈ (plan.roundOf world progress level).attempts) :
    Attempted world (plan.providers.getD attempt.group.provider systemProvider) progress.values attempt := by
  obtain ⟨tally, made⟩ := attemptAll_made member
  have happened := @attempt_attempted world plan.providers progress.values tally attempt.group
  rwa [← made] at happened

end Pass

inductive Plan.Passes (plan : Plan) (world : World) (overrides : Record) (start : Progress) :
    List Level → Progress → Prop where
  | start : Passes plan world overrides start [] start
  | level {passed : List Level} {progress : Progress} {level : Level}
      (earlier : Passes plan world overrides start passed progress)
      (busy : progress.candidates level ≠ []) (calm : (plan.roundOf world progress level).fatal? = none) :
      Passes plan world overrides start (passed ++ [level]) (plan.pass world overrides progress level)

-- How a run ends: past the last level, where nothing is left to call, or where arguments
-- were refused.
inductive Plan.Finishes (plan : Plan) (world : World) (overrides : Record) (start : Progress)
    (levels : List Level) : Run → Prop where
  | completed {progress : Progress} (passes : plan.Passes world overrides start levels progress) :
      Finishes plan world overrides start levels ⟨progress, .completed⟩
  | stopped {passed later : List Level} {level : Level} {progress : Progress}
      (passes : plan.Passes world overrides start passed progress) (split : levels = passed ++ level :: later)
      (idle : progress.candidates level = []) :
      Finishes plan world overrides start levels ⟨progress.leaveOut level, .stopped level.index⟩
  | aborted {passed later : List Level} {level : Level} {progress : Progress} {error : RunError}
      (passes : plan.Passes world overrides start passed progress) (split : levels = passed ++ level :: later)
      (busy : progress.candidates level ≠ [])
      (fatal : (plan.roundOf world progress level).fatal? = some error) :
      Finishes plan world overrides start levels ⟨plan.halt world progress level, .aborted error⟩

theorem runLevels_cons (plan : Plan) (world : World) (overrides : Record) (progress : Progress)
    (level : Level) (rest : List Level) :
    plan.runLevels world overrides progress (level :: rest) =
      if (progress.candidates level).isEmpty then ⟨progress.leaveOut level, .stopped level.index⟩
      else
        match (plan.roundOf world progress level).fatal? with
        | some error => ⟨plan.halt world progress level, .aborted error⟩
        | none => plan.runLevels world overrides (plan.pass world overrides progress level) rest :=
  rfl

theorem runLevels_finishes {plan : Plan} {world : World} {overrides : Record} {start progress : Progress}
    {passed : List Level} (rest : List Level) (passes : plan.Passes world overrides start passed progress) :
    plan.Finishes world overrides start (passed ++ rest) (plan.runLevels world overrides progress rest) := by
  induction rest generalizing passed progress with
  | nil =>
    rw [List.append_nil]
    exact .completed passes
  | cons level rest ih =>
    rw [runLevels_cons]
    split
    · rename_i none_left
      exact .stopped passes rfl (List.isEmpty_iff.mp none_left)
    · rename_i some_left
      have busy : progress.candidates level ≠ [] := by simpa using some_left
      split
      · rename_i error fatal
        exact .aborted passes rfl busy fatal
      · rename_i calm
        have further := ih (passes.level busy calm)
        rwa [List.append_assoc, List.singleton_append] at further

theorem run_result_eq {run : Run} {result : RunResult} (returned : run.result = .ok result) :
    result = run.progress.result := by
  unfold Run.result at returned
  split at returned
  · cases returned
  · exact (Except.ok.inj returned).symm

theorem run_finishes (plan : Plan) (world : World) (overrides : Record) (tally : Tally) :
    plan.Finishes world overrides (.start plan overrides tally) plan.levels (plan.run world overrides tally) :=
  runLevels_finishes plan.levels .start

theorem level_next {plan : Plan} {passed later : List Level} {level : Level}
    (split : plan.levels = passed ++ level :: later) : plan.levels[passed.length]? = some level := by
  rw [split, List.getElem?_append_right (Nat.le_refl _), Nat.sub_self, List.getElem?_cons_zero]

-- What holds at the start and survives each level holds after any number of levels.
-- The count is the index of the level whose turn is next.
theorem Plan.Passes.invariant {plan : Plan} {world : World} {overrides : Record} {start progress : Progress}
    {passed : List Level} {Holds : Nat → Progress → Prop}
    (passes : plan.Passes world overrides start passed progress) (within : passed <+: plan.levels)
    (initial : Holds 0 start)
    (preserved : ∀ count progress level, plan.levels[count]? = some level → Holds count progress →
      (plan.roundOf world progress level).fatal? = none →
      Holds (count + 1) (plan.pass world overrides progress level)) :
    Holds passed.length progress := by
  induction passes with
  | start => exact initial
  | @level passed progress level earlier busy calm ih =>
    obtain ⟨later, equal⟩ := within
    have split : plan.levels = passed ++ level :: later := by
      rw [← equal, List.append_assoc, List.singleton_append]
    rw [List.length_append, List.length_singleton]
    exact preserved _ _ _ (level_next split) (ih ⟨level :: later, split.symm⟩) calm

structure Run.Reaches (run : Run) (plan : Plan) (result : RunResult) (count : Nat) (progress : Progress) :
    Prop where
  values : result.values = progress.values
  failed : result.failed = distinct progress.failed
  attempts : run.progress.attempts = progress.attempts
  ended : (plan.levels.length = count ∧ run.ending = .completed) ∨
    ∃ level, plan.levels[count]? = some level ∧ progress.candidates level = [] ∧
      run.ending = .stopped level.index

def Run.Ended (run : Run) (plan : Plan) (count : Nat) (progress : Progress) : Prop :=
  (plan.levels.length = count ∧ run = ⟨progress, .completed⟩) ∨
    ∃ level, plan.levels[count]? = some level ∧ progress.candidates level = [] ∧
      run = ⟨progress.leaveOut level, .stopped level.index⟩

theorem run_ended {plan : Plan} {world : World} {overrides : Record} {tally : Tally} {result : RunResult}
    (returned : (plan.run world overrides tally).result = .ok result) :
    ∃ passed progress, plan.Passes world overrides (.start plan overrides tally) passed progress ∧
      passed <+: plan.levels ∧ (plan.run world overrides tally).Ended plan passed.length progress := by
  have finishes := run_finishes plan world overrides tally
  generalize plan.run world overrides tally = run at finishes returned ⊢
  cases finishes with
  | @completed progress passes => exact ⟨_, progress, passes, List.prefix_refl _, Or.inl ⟨rfl, rfl⟩⟩
  | @stopped passed later level progress passes split idle =>
    exact ⟨passed, progress, passes, ⟨level :: later, split.symm⟩, Or.inr ⟨level, level_next split, idle, rfl⟩⟩
  | aborted _ _ _ _ => cases returned

theorem Run.Ended.reaches {run : Run} {plan : Plan} {count : Nat} {progress : Progress}
    (ended : run.Ended plan count progress) : run.Reaches plan run.progress.result count progress := by
  cases ended with
  | inl completed =>
    obtain ⟨past, rfl⟩ := completed
    exact ⟨rfl, rfl, rfl, Or.inl ⟨past, rfl⟩⟩
  | inr stopped =>
    obtain ⟨level, place, idle, rfl⟩ := stopped
    exact ⟨rfl, rfl, rfl, Or.inr ⟨level, place, idle, rfl⟩⟩

theorem run_invariant {plan : Plan} {world : World} {overrides : Record} {tally : Tally} {result : RunResult}
    {Holds : Nat → Progress → Prop} (returned : (plan.run world overrides tally).result = .ok result)
    (initial : Holds 0 (.start plan overrides tally))
    (preserved : ∀ count progress level, plan.levels[count]? = some level → Holds count progress →
      (plan.roundOf world progress level).fatal? = none →
      Holds (count + 1) (plan.pass world overrides progress level)) :
    ∃ count progress, Holds count progress ∧
      (plan.run world overrides tally).Reaches plan result count progress := by
  obtain ⟨passed, progress, passes, within, ended⟩ := run_ended returned
  refine ⟨passed.length, progress, passes.invariant within initial preserved, ?_⟩
  rw [run_result_eq returned]
  exact ended.reaches

theorem run_returns {plan : Plan} {world : World} {overrides : Record} {tally : Tally}
    {Holds : Nat → Progress → Prop} (initial : Holds 0 (.start plan overrides tally))
    (preserved : ∀ count progress level, plan.levels[count]? = some level → Holds count progress →
      (plan.roundOf world progress level).fatal? = none →
      Holds (count + 1) (plan.pass world overrides progress level))
    (calm : ∀ count progress level, plan.levels[count]? = some level → Holds count progress →
      (plan.roundOf world progress level).fatal? = none) :
    ∃ result, (plan.run world overrides tally).result = .ok result := by
  have returns : ∀ rest passed progress, plan.levels = passed ++ rest → Holds passed.length progress →
      ∃ result, (plan.runLevels world overrides progress rest).result = .ok result := by
    intro rest
    induction rest with
    | nil => exact fun passed progress _ _ => ⟨progress.result, rfl⟩
    | cons level rest ih =>
      intro passed progress split holds
      rw [runLevels_cons]
      by_cases none_left : (progress.candidates level).isEmpty
      · rw [if_pos none_left]
        exact ⟨_, rfl⟩
      · have place := level_next split
        have quiet := calm _ _ _ place holds
        rw [if_neg none_left, quiet]
        refine ih (passed ++ [level]) _ (by simp [split]) ?_
        rw [List.length_append]
        exact preserved _ _ _ place holds quiet
  exact returns plan.levels [] _ rfl initial

end WiredViews
