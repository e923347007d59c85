import WiredViews.Proofs.ArgumentFit
import WiredViews.Proofs.LevelBatches
import WiredViews.Proofs.Timing

namespace WiredViews

def Providers.modelOf (providers : Providers) (name : String) : ArgumentModel :=
  (providers.getD name systemProvider).model

def Attempt.Fits (providers : Providers) (attempt : Attempt) : Prop :=
  ∀ arguments ∈ attempt.batch, (providers.modelOf attempt.group.provider).Fits arguments

structure Round.FirstUnfit (providers : Providers) (round : Round) (attempt : Attempt) (member : Member)
    (arguments : Record) : Prop where
  group : IsFirst (fun attempt => ¬ attempt.Fits providers) round.attempts attempt
  service : IsFirst (fun entry => ¬ (providers.modelOf attempt.group.provider).Fits entry.2)
    (attempt.group.members.zip attempt.batch) (member, arguments)

-- What is said of arguments that do not fit. Where the check breaks off it does not come
-- to a complaint.
def ArgumentModel.refusal (model : ArgumentModel) (provider service : String) (arguments : Record) : RunError :=
  if model.breaksOn arguments then .breakdown else .typing ⟨provider, service, model.complaints arguments⟩

theorem unfit_iff {providers : Providers} {attempt : Attempt} {values : Record}
    (batched : attempt.batch = attempt.group.batch values) : ¬ attempt.Fits providers ↔
      ∃ member arguments, IsFirst (fun entry => ¬ (providers.modelOf attempt.group.provider).Fits entry.2)
        (attempt.group.members.zip attempt.batch) (member, arguments) := by
  have seconds : (attempt.group.members.zip attempt.batch).map Prod.snd = attempt.batch := by
    rw [batched, Group.batch, ← List.map_prod_left_eq_zip, List.map_map]
    rfl
  rw [Attempt.Fits, ← seconds, List.forall_mem_map, seconds, ← Prod.exists, exists_isFirst]
  push Not
  rfl

theorem Plan.Played.unfit {plan : Plan} {world : World} {overrides : Record} {rounds : List Round} {index : Nat}
    {level : Level} {before : Progress} {round : Round}
    (played : plan.Played world overrides rounds index level before round) {providers : Providers}
    {attempt : Attempt} (made : attempt ∈ round.attempts) (unfit : ¬ attempt.Fits providers) :
    ∃ attempt member arguments, round.FirstUnfit providers attempt member arguments := by
  obtain ⟨first, group⟩ : ∃ first, IsFirst (fun attempt => ¬ attempt.Fits providers) round.attempts first :=
    exists_isFirst.mpr ⟨attempt, made, unfit⟩
  obtain ⟨member, arguments, service⟩ := (unfit_iff (played.batch group.member)).mp group.holds
  exact ⟨first, member, arguments, group, service⟩

section Groups
variable {group : Group} {model : ArgumentModel} {values : Record}

theorem group_error_none :
    group.error? model values = none ↔ ∀ arguments ∈ group.batch values, model.Fits arguments := by
  unfold Group.error? Group.batch
  rw [List.findSome?_eq_none_iff, List.forall_mem_map]
  simp only [member_error_none]

theorem group_error_some {error : RunError} : group.error? model values = some error ↔
    ∃ member arguments,
      IsFirst (fun entry => ¬ model.Fits entry.2) (group.members.zip (group.batch values)) (member, arguments) ∧
        error = model.refusal group.provider member.name arguments := by
  have misfits : ∀ member ∈ group.members, (∃ error, member.error? group.provider model values = some error) ↔
      ¬ model.Fits (member.arguments values) := by
    intro member _
    rw [← @member_error_none member group.provider, ← Option.isSome_iff_exists, Option.isSome_iff_ne_none]
  unfold Group.error? Group.batch
  rw [findSome?_eq_first, ← List.map_prod_left_eq_zip]
  constructor
  · rintro ⟨member, first, found⟩
    exact ⟨member, _, isFirst_map.mpr ⟨member, (isFirst_congr misfits).mp first, rfl⟩,
      (member_error_some.mp found).2⟩
  · rintro ⟨member, arguments, first, rfl⟩
    obtain ⟨owner, misfit, same⟩ := isFirst_map.mp first
    obtain ⟨rfl, rfl⟩ := Prod.mk.inj same
    exact ⟨owner, (isFirst_congr misfits).mpr misfit, member_error_some.mpr ⟨misfit.holds, rfl⟩⟩

end Groups

theorem outcome_unrejected {reply : Reply} {provider : String} {error : RunError} :
    reply.outcome provider ≠ .rejected error := by
  cases reply with
  | returned left result => cases read : result.records provider left.length <;> simp [Reply.outcome, read]
  | raised error => cases error <;> simp [Reply.outcome]

namespace Context
variable {context : Context} {providers : Providers} {policy : Policy} {world : World} {overrides : Record}

inductive Screened (providers : Providers) (world : World) (attempt : Attempt) : Prop where
  | passed (fits : attempt.Fits providers) (invoked : Invoked providers world attempt) :
      Screened providers world attempt
  | refused (unfit : ¬ attempt.Fits providers) (uncalled : attempt.called = false)
      (rejected : ∃ error, attempt.outcome = .rejected error) : Screened providers world attempt

section Rounds
variable {rounds : List Round} {index : Nat} {level : Level} {before : Progress} {round : Round}
  (timely : context.Timely providers (context.plan providers policy))
  (played : (context.plan providers policy).Played world overrides rounds index level before round)
include timely played

theorem played_screened {attempt : Attempt} (made : attempt ∈ round.attempts) : Screened providers world attempt := by
  have invoked := played_invoked timely played made
  have happened := played.attempted made
  clear made
  cases happened with
  | refused unfit =>
    refine .refused (fun fits => ?_) rfl ⟨_, rfl⟩
    cases (group_error_none.mpr fits).symm.trans unfit
  | idle fit _ => exact .passed (group_error_none.mp fit) (invoked nofun)
  | called fit _ => exact .passed (group_error_none.mp fit) (invoked fun _ => outcome_unrejected)

section Quiet
variable (quiet : context.Quiet providers world)
include quiet

theorem attempt_fatal {attempt : Attempt} (made : attempt ∈ round.attempts) : attempt.outcome.fatal? =
    attempt.group.error? (providers.modelOf attempt.group.provider) before.values := by
  have candidate := played.candidate made
  have happened := played.attempted made
  clear made
  cases happened with
  | refused unfit => exact unfit.symm
  | idle fit _ => exact fit.symm
  | called fit registered =>
    have calm := quiet _ (candidate_uses timely played.place candidate registered)
    exact (outcome_calm (calm _ _)).trans fit.symm

theorem attempt_fatal_some {attempt : Attempt} (made : attempt ∈ round.attempts) {error : RunError} :
    attempt.outcome.fatal? = some error ↔ ∃ member arguments,
      IsFirst (fun entry => ¬ (providers.modelOf attempt.group.provider).Fits entry.2)
        (attempt.group.members.zip attempt.batch) (member, arguments) ∧
      error = (providers.modelOf attempt.group.provider).refusal attempt.group.provider member.name arguments := by
  rw [attempt_fatal timely played quiet made, group_error_some, played.batch made]

theorem played_fatal {error : RunError} : round.fatal? = some error ↔ ∃ attempt member arguments,
    round.FirstUnfit providers attempt member arguments ∧
      error = (providers.modelOf attempt.group.provider).refusal attempt.group.provider member.name arguments := by
  have prompt : round.Prompt := played.made ▸ round_prompt timely played.place quiet
  have unfit : ∀ attempt ∈ round.attempts, attempt.isFatal = true ↔ ¬ attempt.Fits providers := by
    intro attempt made
    rw [unfit_iff (played.batch made), Attempt.isFatal, Option.isSome_iff_exists]
    simp only [attempt_fatal_some timely played quiet made]
    constructor
    · rintro ⟨_, member, arguments, service, _⟩
      exact ⟨member, arguments, service⟩
    · rintro ⟨member, arguments, service⟩
      exact ⟨_, member, arguments, service, rfl⟩
  rw [Round.fatal?, firstFatal_prompt prompt, List.head?_filter, Option.bind_eq_some_iff]
  simp only [find?_eq_first fun _ => Iff.rfl, isFirst_congr unfit]
  constructor
  · rintro ⟨attempt, group, fatal⟩
    obtain ⟨member, arguments, service, equal⟩ := (attempt_fatal_some timely played quiet group.member).mp fatal
    exact ⟨attempt, member, arguments, ⟨group, service⟩, equal⟩
  · rintro ⟨attempt, member, arguments, ⟨group, service⟩, equal⟩
    exact ⟨attempt, group, (attempt_fatal_some timely played quiet group.member).mpr ⟨member, arguments, service, equal⟩⟩

end Quiet
end Rounds

-- What holds of the arguments of a run whatever the providers do.
structure GuardsCalls (context : Context) (plan : Plan) (world : World) (overrides : Record) (run : Run) : Prop where
  levels : ∀ (index : Nat) (round : Round), run.progress.rounds[index]? = some round → ∃ level : Level,
    plan.levels[index]? = some level ∧ level.index = index ∧
      context.LevelGroups plan overrides level (run.progress.rounds.take index) round
  screened : ∀ attempt ∈ run.progress.attempts, Screened plan.providers world attempt
  last : ∀ (index : Nat) (round : Round), run.progress.rounds[index]? = some round →
    (∃ attempt ∈ round.attempts, ¬ attempt.Fits plan.providers) → index + 1 = run.progress.rounds.length

structure AbortsExactly (providers : Providers) (run : Run) : Prop where
  raised : (∃ error, run.result = .error (.typing error)) ↔
    ∃ round ∈ run.progress.rounds, ∃ attempt ∈ round.attempts, ¬ attempt.Fits providers
  named : ∀ error, run.result = .error (.typing error) → ∃ round ∈ run.progress.rounds,
    ∃ attempt member arguments, round.FirstUnfit providers attempt member arguments ∧
      error = ⟨attempt.group.provider, member.name, (providers.modelOf attempt.group.provider).complaints arguments⟩

def Unbroken (providers : Providers) (run : Run) : Prop :=
  ∀ round ∈ run.progress.rounds, ∀ attempt member arguments, round.FirstUnfit providers attempt member arguments →
    (providers.modelOf attempt.group.provider).breaksOn arguments = false

section Runs
variable {tally : Tally} (timely : context.Timely providers (context.plan providers policy))
include timely

theorem run_guards : context.GuardsCalls (context.plan providers policy) world overrides
    ((context.plan providers policy).run world overrides tally) := by
  refine ⟨fun index round listed => run_groups timely listed, fun attempt made => ?_,
    fun index round listed unfit => ?_⟩
  · obtain ⟨round, member, inside⟩ := List.mem_flatMap.mp made
    obtain ⟨_, _, _, played⟩ := run_played_mem member
    exact played_screened timely played inside
  · obtain ⟨attempt, made, misfit⟩ := unfit
    obtain ⟨_, _, played⟩ := run_played listed
    cases fatal : round.fatal? with
    | some error => exact run_fatal_last listed fatal
    | none =>
      cases played_screened timely played made with
      | passed fits _ => exact absurd fits misfit
      | refused _ _ rejected =>
        obtain ⟨error, outcome⟩ := rejected
        exact absurd outcome (calm_not_rejected fatal made error)

variable (quiet : context.Quiet providers world)
include quiet

theorem run_refused {error : RunError} :
    ((context.plan providers policy).run world overrides tally).result = .error error ↔
      ∃ round ∈ ((context.plan providers policy).run world overrides tally).progress.rounds,
        ∃ attempt member arguments, round.FirstUnfit providers attempt member arguments ∧
          error = (providers.modelOf attempt.group.provider).refusal attempt.group.provider member.name arguments := by
  rw [run_error_iff]
  refine exists_congr fun round => and_congr_right fun member => ?_
  obtain ⟨_, _, _, played⟩ := run_played_mem member
  exact played_fatal timely played quiet

theorem unbroken_exact
    (unbroken : Unbroken providers ((context.plan providers policy).run world overrides tally)) :
    AbortsExactly providers ((context.plan providers policy).run world overrides tally) := by
  have named : ∀ round ∈ ((context.plan providers policy).run world overrides tally).progress.rounds,
      ∀ attempt member arguments, round.FirstUnfit providers attempt member arguments →
        (providers.modelOf attempt.group.provider).refusal attempt.group.provider member.name arguments = .typing
          ⟨attempt.group.provider, member.name, (providers.modelOf attempt.group.provider).complaints arguments⟩ := by
    intro round member attempt service arguments first
    rw [ArgumentModel.refusal, unbroken round member attempt service arguments first]
    rfl
  constructor
  case raised =>
    constructor
    · rintro ⟨error, raised⟩
      obtain ⟨round, member, attempt, _, _, first, _⟩ := (run_refused timely quiet).mp raised
      exact ⟨round, member, attempt, first.group.member, first.group.holds⟩
    · rintro ⟨round, member, attempt, made, unfit⟩
      obtain ⟨_, _, _, played⟩ := run_played_mem member
      obtain ⟨attempt, service, arguments, first⟩ := played.unfit made unfit
      exact ⟨_, (run_refused timely quiet).mpr ⟨round, member, attempt, service, arguments, first,
        (named round member attempt service arguments first).symm⟩⟩
  case named =>
    intro error raised
    obtain ⟨round, member, attempt, service, arguments, first, equal⟩ := (run_refused timely quiet).mp raised
    rw [named round member attempt service arguments first, RunError.typing.injEq] at equal
    exact ⟨round, member, attempt, service, arguments, first, equal⟩

end Runs

-- The abort is exact, but for a check that breaks off on the arguments it is to complain of.
theorem run_typing {plan : Plan} {tally : Tally} (accepted : Plan.build context providers policy = .ok plan) :
    context.GuardsCalls plan world overrides (plan.run world overrides tally) ∧
      (context.Quiet providers world →
        (AbortsExactly providers (plan.run world overrides tally) ↔
          Unbroken providers (plan.run world overrides tally))) := by
  obtain ⟨rfl, timely⟩ := build_timely accepted
  refine ⟨run_guards timely, fun quiet => ⟨?_, unbroken_exact timely quiet⟩⟩
  intro exactly round member attempt service arguments first
  by_contra breaks
  rw [Bool.not_eq_false] at breaks
  obtain ⟨error, raised⟩ := exactly.raised.mpr ⟨round, member, attempt, first.group.member, first.group.holds⟩
  have broken := (run_refused timely quiet).mpr ⟨round, member, attempt, service, arguments, first, rfl⟩
  rw [raised, ArgumentModel.refusal, if_pos breaks] at broken
  cases broken

end Context

def tour : Context where
  bindings := Table.ofList [("start", .constant "Oslo"), ("stop", .reference "round" "goal"),
    ("port", .reference "over" "goal")]
  services := Table.ofList [("round", ⟨"Tour", [⟨"stops", "start"⟩]⟩), ("over", ⟨"Ferry", [⟨"from", "start"⟩]⟩)]

def tourism : Providers :=
  Table.ofList [("Tour", ⟨Table.ofList [("stops", .only .textList)], .registered 0, false⟩),
    ("Ferry", ⟨∅, .registered 1, false⟩)]

theorem tour_refused : ∃ complaints,
    ((tour.plan tourism .standard).run standstill ∅ .none).result =
      .error (.typing ⟨"Tour", "round", complaints⟩) ∧
    ((tour.plan tourism .standard).run standstill ∅ .none).progress.attempts.map Attempt.called = [false, true] ∧
    tour.GuardsCalls (tour.plan tourism .standard) standstill ∅ ((tour.plan tourism .standard).run standstill ∅ .none) ∧
    Context.AbortsExactly tourism ((tour.plan tourism .standard).run standstill ∅ .none) := by
  obtain ⟨guards, exactly⟩ := @Context.run_typing _ _ _ standstill ∅ _ .none
    (show Plan.build tour tourism .standard = .ok _ from rfl)
  refine ⟨_, rfl, by decide +kernel, guards, (exactly fun _ _ _ _ _ => nofun).mpr ?_⟩
  have unbroken : ∀ round ∈ ((tour.plan tourism .standard).run standstill ∅ .none).progress.rounds,
      ∀ attempt ∈ round.attempts, ∀ arguments ∈ attempt.batch,
        (tourism.modelOf attempt.group.provider).breaksOn arguments = false := by
    decide +kernel
  intro round member attempt service arguments first
  exact unbroken round member attempt first.group.member arguments (List.of_mem_zip first.service.member).2

def oddStart : Record :=
  Table.ofList [("start", .object [("type", .str "string")])]

theorem tour_broken :
    ((tour.plan tourism .standard).run standstill oddStart .none).result = .error .breakdown ∧
    ¬ Context.AbortsExactly tourism ((tour.plan tourism .standard).run standstill oddStart .none) := by
  have ended : ((tour.plan tourism .standard).run standstill oddStart .none).result = .error .breakdown := rfl
  have broken : ∃ round ∈ ((tour.plan tourism .standard).run standstill oddStart .none).progress.rounds,
      ∃ attempt ∈ round.attempts, ∃ arguments ∈ attempt.batch,
        (tourism.modelOf attempt.group.provider).breaksOn arguments = true := by
    decide +kernel
  refine ⟨ended, fun exactly => ?_⟩
  obtain ⟨round, member, attempt, made, arguments, handed, breaks⟩ := broken
  obtain ⟨error, raised⟩ := exactly.raised.mpr
    ⟨round, member, attempt, made, fun fits => breaks_unfit breaks (fits arguments handed)⟩
  rw [ended] at raised
  cases raised

end WiredViews
