import WiredViews.Proofs.LevelStrategies
import WiredViews.Proofs.Timing

namespace WiredViews

def Record.only (chosen : String → Bool) (record : Record) : Record :=
  record.filterMapRows fun name value => if chosen name then some value else none

theorem get?_only (chosen : String → Bool) (record : Record) (name : String) :
    (record.only chosen).get? name = if chosen name then record.get? name else none := by
  unfold Record.only
  rw [Table.get?_filterMapRows]
  cases record.get? name with
  | none => simp
  | some value => rfl

def Context.Steady (context : Context) (providers : Providers) (world : World) : Prop :=
  ∀ number, context.Uses providers number → ∀ calls later batch,
    (world number).reply calls batch = (world number).reply later batch

section Attempts
variable {world : World} {providers : Providers} {values other : Record}

theorem error_congr {group : Group} (model : ArgumentModel)
    (same : ∀ member ∈ group.members, member.arguments values = member.arguments other) :
    group.error? model values = group.error? model other := by
  unfold Group.error?
  revert same
  induction group.members with
  | nil => exact fun _ => rfl
  | cons member rest ih =>
    intro same
    rw [List.forall_mem_cons] at same
    have here : member.error? group.provider model values = member.error? group.provider model other := by
      unfold Member.error?
      rw [same.1]
    rw [List.findSome?_cons, List.findSome?_cons, here, ih same.2]

theorem attempt_steady {group : Group} (tally later : Tally)
    (same : ∀ member ∈ group.members, member.arguments values = member.arguments other)
    (steady : ∀ number, (providers.getD group.provider systemProvider).callback = .registered number →
      ∀ calls later batch, (world number).reply calls batch = (world number).reply later batch) :
    (attempt world providers values tally group).1.untimed =
      (attempt world providers other later group).1.untimed := by
  have batch : group.batch values = group.batch other := List.map_congr_left same
  unfold attempt
  dsimp only
  rw [error_congr _ same, batch]
  split
  · rfl
  · split
    · rfl
    · rename_i number registered
      unfold Attempt.untimed
      dsimp only
      rw [steady number registered (tally number) (later number)]

theorem attemptAll_steady {groups : List Group} (tally later : Tally)
    (same : ∀ group ∈ groups, ∀ member ∈ group.members, member.arguments values = member.arguments other)
    (steady : ∀ group ∈ groups, ∀ number,
      (providers.getD group.provider systemProvider).callback = .registered number →
      ∀ calls later batch, (world number).reply calls batch = (world number).reply later batch) :
    (attemptAll world providers values tally groups).1.map Attempt.untimed =
      (attemptAll world providers other later groups).1.map Attempt.untimed := by
  induction groups generalizing tally later with
  | nil => rfl
  | cons group rest ih =>
    rw [List.forall_mem_cons] at same steady
    simp only [attemptAll, List.map_cons]
    rw [attempt_steady tally later same.1 steady.1, ih _ _ same.2 steady.2]

end Attempts

theorem flatMap_untimed {α : Type} {first second : List Attempt} (read : Attempt → List α)
    (timeless : ∀ attempt, read attempt.untimed = read attempt)
    (same : first.map Attempt.untimed = second.map Attempt.untimed) :
    first.flatMap read = second.flatMap read := by
  have stripped : ∀ attempts : List Attempt, attempts.flatMap read = (attempts.map Attempt.untimed).flatMap read := by
    intro attempts
    rw [List.flatMap_map]
    simp only [timeless]
  rw [stripped, same, ← stripped]

theorem calm_untimed {first second : Round}
    (same : first.attempts.map Attempt.untimed = second.attempts.map Attempt.untimed)
    (calm : first.fatal? = none) : second.fatal? = none := by
  rw [fatal?_eq_none] at calm ⊢
  intro attempt made
  have listed : attempt.untimed ∈ first.attempts.map Attempt.untimed := same ▸ List.mem_map_of_mem made
  obtain ⟨twin, remade, equal⟩ := List.mem_map.mp listed
  have quiet : twin.untimed.isFatal = false := calm twin remade
  rw [equal] at quiet
  exact quiet

namespace Context
variable {context : Context} {providers : Providers} {policy : Policy} {world : World} {overrides : Record}

theorem returned_low (timely : context.Timely providers (context.plan providers policy))
    {rest passed : List Level} {progress : Progress} {result : RunResult}
    (split : (context.plan providers policy).levels = passed ++ rest)
    (returned : ((context.plan providers policy).runLevels world overrides progress rest).result = .ok result)
    {name : String} (low : context.Within overrides (fun service => context.rankOf service < passed.length) name) :
    result.values.get? name = progress.values.get? name := by
  induction rest generalizing passed progress with
  | nil =>
    cases returned
    rfl
  | cons level rest ih =>
    rw [runLevels_cons] at returned
    split at returned
    · cases returned
      rfl
    · split at returned
      · cases returned
      · have further : context.Within overrides
            (fun service => context.rankOf service < (passed ++ [level]).length) name := by
          intro free service field bound
          have rank := low free service field bound
          rw [List.length_append, List.length_singleton]
          omega
        rw [ih (by simp [split]) returned further]
        exact pass_low timely (level_next split) low

-- The two runs side by side between two levels: where a result was given, it is there
-- from the start.
structure Ahead (final : Record) (chosen : String → Bool) (progress other : Progress) : Prop where
  values : ∀ name, other.values.get? name =
    ((final.only chosen).get? name).or (progress.values.get? name)
  pruned : other.pruned = progress.pruned
  failed : other.failed = progress.failed
  skipped : other.skipped = progress.skipped
  rounds : other.rounds.length = progress.rounds.length

section Step
variable {final : Record} {chosen : String → Bool} {progress other : Progress} {count : Nat} {level : Level}

theorem Ahead.candidates (ahead : Ahead final chosen progress other) :
    other.candidates level = progress.candidates level := by
  unfold Progress.candidates Progress.isPruned
  rw [ahead.pruned]

theorem Ahead.left_out (ahead : Ahead final chosen progress other) :
    Ahead final chosen (progress.leaveOut level) (other.leaveOut level) where
  values := ahead.values
  pruned := ahead.pruned
  failed := ahead.failed
  skipped := by
    unfold Progress.leaveOut Progress.isPruned
    rw [ahead.skipped, ahead.pruned]
  rounds := ahead.rounds

section Level
variable (layered : context.Layered providers policy)
  (ahead : Ahead final chosen progress other)
  (settled : ∀ name, context.Within overrides (fun service => context.rankOf service < count) name →
    final.get? name = progress.values.get? name)
include layered ahead settled

theorem Ahead.arguments {service : String} (rank : context.rankOf service = count) :
    context.argumentsOf other.values service = context.argumentsOf progress.values service := by
  apply @arguments_congr _ overrides
  intro name fed
  have final_now : final.get? name = progress.values.get? name := by
    apply settled
    intro free parent field bound
    have lower := rank_lt_of_ancestor layered.settled (.single (fed free parent field bound))
    omega
  rw [ahead.values, get?_only, final_now]
  split
  · exact Option.or_self
  · exact Option.none_or

variable (steady : context.Steady providers world)
  (place : (context.plan providers policy).levels[count]? = some level)
include steady place

theorem Ahead.attempts :
    ((context.plan providers policy).roundOf world other level).attempts.map Attempt.untimed =
      ((context.plan providers policy).roundOf world progress level).attempts.map Attempt.untimed := by
  unfold Plan.roundOf
  rw [ahead.candidates]
  apply attemptAll_steady
  · intro group candidate member listed
    obtain ⟨held, rank, _⟩ := candidate_member layered place candidate listed
    rw [member_arguments _ held, member_arguments _ held]
    exact ahead.arguments layered settled rank
  · intro group candidate number registered
    exact steady number (candidate_uses layered.timely place candidate registered)

variable {replayed : Record}
  (given : ∀ name, replayed.get? name = ((final.only chosen).get? name).or (overrides.get? name))
include given

theorem Ahead.values_pass (name : String) :
    ((context.plan providers policy).pass world replayed other level).values.get? name =
      ((final.only chosen).get? name).or
        (((context.plan providers policy).pass world overrides progress level).values.get? name) := by
  have answers : ((context.plan providers policy).roundOf world other level).attempts.flatMap Attempt.answers =
      ((context.plan providers policy).roundOf world progress level).attempts.flatMap Attempt.answers :=
    flatMap_untimed Attempt.answers (fun _ => rfl) (ahead.attempts layered settled steady place)
  cases present : (final.only chosen).get? name with
  | some value =>
    have masked : name ∈ replayed.keys := by
      rw [Table.mem_keys]
      exact ⟨value, by rw [given, present, Option.some_or]⟩
    rw [pass_unwritten fun free => absurd masked free, ahead.values, present, Option.some_or, Option.some_or]
  | none =>
    have mask : name ∈ replayed.keys ↔ name ∈ overrides.keys := by
      rw [Table.mem_keys, Table.mem_keys, given, present, Option.none_or]
    rw [Option.none_or]
    by_cases silent : name ∉ overrides.keys → ∀ answer ∈
        ((context.plan providers policy).roundOf world progress level).attempts.flatMap Attempt.answers,
        ∀ field, context.bindings.get? name ≠ some (.reference answer.1.name field)
    · rw [pass_unwritten silent, pass_unwritten fun free => ?_, ahead.values, present, Option.none_or]
      rw [answers]
      exact silent fun masked => free (mask.mpr masked)
    · push Not at silent
      obtain ⟨free, answer, answered, field, bound⟩ := silent
      rw [pass_written (layered.timely.round_once place) answered name field bound free]
      exact pass_written (layered.timely.round_once place) (answers ▸ answered) name field bound
        fun masked => free (mask.mp masked)

theorem Ahead.pass : Ahead final chosen ((context.plan providers policy).pass world overrides progress level)
    ((context.plan providers policy).pass world replayed other level) := by
  have attempts := ahead.attempts layered settled steady place
  constructor
  case values => exact ahead.values_pass layered settled steady place given
  case pruned =>
    rw [pass_pruned, pass_pruned, ahead.pruned]
    rw [flatMap_untimed (context.plan providers policy).givenUp (fun _ => rfl) attempts]
  case failed =>
    rw [pass_failed, pass_failed, ahead.failed, flatMap_untimed Attempt.failedNames (fun _ => rfl) attempts]
  case skipped =>
    rw [pass_skipped, pass_skipped, ahead.left_out.skipped]
    rw [flatMap_untimed Attempt.idleNames (fun _ => rfl) attempts]
  case rounds =>
    rw [pass_rounds, pass_rounds, List.length_append, List.length_append, ahead.rounds]
    rfl

end Level
end Step

-- The same results; records are the same if they read the same.
structure SameResult (result again : RunResult) : Prop where
  values : ∀ name, again.values.get? name = result.values.get? name
  failed : again.failed = result.failed
  skipped : again.skipped = result.skipped
  levelsExecuted : again.levelsExecuted = result.levelsExecuted

theorem Ahead.same {final : Record} {chosen : String → Bool} {progress other : Progress}
    (ahead : Ahead final chosen progress other) (ended : progress.values = final) :
    SameResult progress.result other.result where
  values := by
    intro name
    change other.values.get? name = progress.values.get? name
    rw [ahead.values, ended, get?_only]
    split
    · exact Option.or_self
    · exact Option.none_or
  failed := congrArg distinct ahead.failed
  skipped := congrArg distinct ahead.skipped
  levelsExecuted := ahead.rounds

-- Level by level: what is given is what the first run comes to, so both make the same
-- calls, and the providers cannot tell them apart.
theorem replay_levels (layered : context.Layered providers policy) (steady : context.Steady providers world)
    {replayed : Record} {chosen : String → Bool} {rest passed : List Level} {progress other : Progress}
    {result : RunResult}
    (given : ∀ name, replayed.get? name = ((result.values.only chosen).get? name).or (overrides.get? name))
    (split : (context.plan providers policy).levels = passed ++ rest)
    (ahead : Ahead result.values chosen progress other)
    (returned : ((context.plan providers policy).runLevels world overrides progress rest).result = .ok result) :
    ∃ again, ((context.plan providers policy).runLevels world replayed other rest).result = .ok again ∧
      SameResult result again := by
  induction rest generalizing passed progress other with
  | nil =>
    cases returned
    exact ⟨_, rfl, ahead.same rfl⟩
  | cons level rest ih =>
    have place := level_next split
    have settled : ∀ name, context.Within overrides (fun service => context.rankOf service < passed.length) name →
        result.values.get? name = progress.values.get? name :=
      fun name low => returned_low layered.timely split returned low
    rw [runLevels_cons] at returned ⊢
    rw [ahead.candidates]
    split at returned
    · rename_i none_left
      cases returned
      rw [if_pos none_left]
      exact ⟨_, rfl, ahead.left_out.same rfl⟩
    · rename_i some_left
      split at returned
      · cases returned
      · rename_i calm
        have attempts := ahead.attempts layered settled steady place
        rw [if_neg some_left, calm_untimed attempts.symm calm]
        exact @ih (passed ++ [level]) _ _ (by simp [split]) (ahead.pass layered settled steady place given) returned

theorem run_replays {plan : Plan} {tally later : Tally} {result : RunResult}
    (accepted : Plan.build context providers policy = .ok plan) (longest : policy.levels = .longestPath)
    (steady : context.Steady providers world)
    (returned : (plan.run world overrides tally).result = .ok result) (chosen : String → Bool) :
    ∃ again, (plan.run world (overrides.insertAll (result.values.only chosen).rows) later).result = .ok again ∧
      SameResult result again := by
  obtain ⟨rfl, layered⟩ := build_layered accepted longest
  have given : ∀ name, (overrides.insertAll (result.values.only chosen).rows).get? name =
      ((result.values.only chosen).get? name).or (overrides.get? name) :=
    fun name => Table.get?_insertAll_rows _ _ name
  have start : Ahead result.values chosen (.start (context.plan providers policy) overrides tally)
      (.start (context.plan providers policy) (overrides.insertAll (result.values.only chosen).rows) later) := by
    refine ⟨fun name => ?_, rfl, rfl, rfl, rfl⟩
    rw [get?_start, get?_start, given, Option.or_assoc]
  exact replay_levels layered steady given (List.nil_append _).symm start returned

end Context

def directOnly : World := fun number =>
  ⟨fun calls batch =>
    if batch.any fun arguments => arguments.contains "via" then
      .raised (.failure (.other "Detour" "no way through"))
    else (standstill number).reply calls batch, fun _ _ => 0⟩

theorem layover_replayed : ∃ result again,
    ((layover.plan railway .standard).run directOnly ∅ .none).result = .ok result ∧
    result.failed = ["on"] ∧ result.values.get? "stop" = some (.str "Oslo") ∧
    ((layover.plan railway .standard).run directOnly
      ((∅ : Record).insertAll (result.values.only fun name => name == "stop").rows) .none).result = .ok again ∧
    Context.SameResult result again := by
  obtain ⟨result, returned⟩ : ∃ result,
      ((layover.plan railway .standard).run directOnly ∅ .none).result = .ok result := ⟨_, rfl⟩
  obtain ⟨again, replayed, same⟩ := @Context.run_replays _ _ _ _ _ _ .none .none _
    (show Plan.build layover railway .standard = .ok _ from rfl) rfl (fun _ _ _ _ _ => rfl) returned
    fun name => name == "stop"
  refine ⟨result, again, returned, ?_, ?_, replayed, same⟩
  · rw [run_result_eq returned]
    decide +kernel
  · rw [run_result_eq returned]
    rfl

end WiredViews
