import WiredViews.Proofs.Dataflow
import WiredViews.Proofs.EntryAnswers
import WiredViews.RunReport

namespace WiredViews

def World.instant (world : World) : World := fun number =>
  ⟨(world number).reply, fun _ _ => 0⟩

def Attempt.untimed (attempt : Attempt) : Attempt :=
  { attempt with delay := 0 }

def Round.untimed (round : Round) : Round :=
  ⟨round.index, round.attempts.map Attempt.untimed⟩

def Progress.untimed (progress : Progress) : Progress :=
  { progress with rounds := progress.rounds.map Round.untimed }

def Run.untimed (run : Run) : Run :=
  ⟨run.progress.untimed, run.ending⟩

def Round.Prompt (round : Round) : Prop :=
  ∀ attempt ∈ round.attempts, attempt.isFatal = true → attempt.delay = 0

section Rounds
variable {world : World} {providers : Providers} {values : Record} {tally : Tally}

theorem attempt_instant (group : Group) : attempt world.instant providers values tally group =
    ((attempt world providers values tally group).1.untimed, (attempt world providers values tally group).2) := by
  unfold attempt
  dsimp only
  split
  · rfl
  · split <;> rfl

theorem attemptAll_instant (groups : List Group) : attemptAll world.instant providers values tally groups =
    ((attemptAll world providers values tally groups).1.map Attempt.untimed,
      (attemptAll world providers values tally groups).2) := by
  induction groups generalizing tally with
  | nil => rfl
  | cons group rest ih =>
    simp only [attemptAll, attempt_instant, ih]
    rfl

theorem earliest_prompt {attempts : List Attempt} (prompt : ∀ attempt ∈ attempts, attempt.delay = 0) :
    earliest attempts = attempts.head? := by
  cases attempts with
  | nil => rfl
  | cons first rest =>
    unfold earliest
    cases earliest rest with
    | none => rfl
    | some other =>
      have least := prompt first List.mem_cons_self
      rw [List.head?_cons]
      simp [least]

theorem firstFatal_prompt {round : Round} (prompt : round.Prompt) :
    round.firstFatal? = (round.attempts.filter Attempt.isFatal).head? := by
  refine earliest_prompt fun attempt member => ?_
  obtain ⟨made, fatal⟩ := List.mem_filter.mp member
  exact prompt attempt made fatal

theorem untimed_prompt (round : Round) : round.untimed.Prompt := by
  intro attempt member _
  obtain ⟨timed, _, rfl⟩ := List.mem_map.mp member
  rfl

theorem fatal_untimed {round : Round} (prompt : round.Prompt) : round.untimed.fatal? = round.fatal? := by
  have fatals : round.untimed.attempts.filter Attempt.isFatal =
      (round.attempts.filter Attempt.isFatal).map Attempt.untimed :=
    List.filter_map
  unfold Round.fatal?
  rw [firstFatal_prompt prompt, firstFatal_prompt (untimed_prompt round), fatals, List.head?_map,
    Option.bind_map]
  rfl

theorem calls_untimed (round : Round) : round.untimed.calls = round.calls := by
  have called : round.untimed.attempts.filter Attempt.called =
      (round.attempts.filter Attempt.called).map Attempt.untimed :=
    List.filter_map
  unfold Round.calls
  rw [called, List.map_map]
  rfl

end Rounds

section Runs
variable {plan : Plan} {world : World} {overrides : Record} {progress : Progress}

theorem roundOf_instant (level : Level) :
    plan.roundOf world.instant progress.untimed level = (plan.roundOf world progress level).untimed := by
  unfold Plan.roundOf Round.untimed
  rw [attemptAll_instant]
  rfl

theorem settle_untimed (attempts : List Attempt) :
    (attempts.map Attempt.untimed).foldl (plan.settle overrides) progress.untimed =
      (attempts.foldl (plan.settle overrides) progress).untimed := by
  rw [settle_all_eq, settle_all_eq]
  simp only [List.flatMap_map]
  rfl

theorem halt_instant (level : Level) : plan.halt world.instant progress.untimed level =
    (plan.halt world progress level).untimed := by
  unfold Plan.halt
  rw [roundOf_instant]
  unfold Progress.untimed Progress.leaveOut
  simp only [List.map_append, List.map_cons, List.map_nil]
  rw [attemptAll_instant]
  rfl

theorem pass_instant (level : Level) : plan.pass world.instant overrides progress.untimed level =
    (plan.pass world overrides progress level).untimed := by
  unfold Plan.pass
  rw [roundOf_instant, halt_instant]
  exact settle_untimed _

theorem runLevels_instant {levels : List Level}
    (prompt : ∀ level ∈ levels, ∀ progress, (plan.roundOf world progress level).Prompt) :
    plan.runLevels world.instant overrides progress.untimed levels =
      (plan.runLevels world overrides progress levels).untimed := by
  induction levels generalizing progress with
  | nil => rfl
  | cons level rest ih =>
    rw [runLevels_cons, runLevels_cons, roundOf_instant, halt_instant,
      fatal_untimed (prompt level List.mem_cons_self progress), pass_instant,
      ih fun level member => prompt level (List.mem_cons_of_mem _ member)]
    by_cases none_left : (progress.candidates level).isEmpty
    · have still : (progress.untimed.candidates level).isEmpty := none_left
      rw [if_pos none_left, if_pos still]
      rfl
    · have still : ¬ (progress.untimed.candidates level).isEmpty := none_left
      rw [if_neg none_left, if_neg still]
      cases (plan.roundOf world progress level).fatal? <;> rfl

theorem calls_run_untimed (run : Run) : run.untimed.calls = run.calls := by
  unfold Run.calls
  have rounds : run.untimed.progress.rounds = run.progress.rounds.map Round.untimed := rfl
  simp only [rounds, List.flatMap_map, calls_untimed]

theorem result_untimed (run : Run) : run.untimed.result = run.result := by
  unfold Run.result Progress.result Run.untimed Progress.untimed
  simp only [List.length_map]

end Runs

theorem outcome_calm {reply : Reply} {provider : String}
    (quiet : ∀ error, reply ≠ .raised (.typing error)) : (reply.outcome provider).fatal? = none := by
  cases reply with
  | returned left result =>
    cases read : result.records provider left.length <;> simp [Reply.outcome, read, Outcome.fatal?]
  | raised error =>
    cases error with
    | typing error => exact absurd rfl (quiet error)
    | placeholder | failure => rfl

namespace Context
variable {context : Context} {providers : Providers} {policy : Policy} {world : World} {overrides : Record}

-- No provider finds fault with arguments that have passed the check.
def Quiet (context : Context) (providers : Providers) (world : World) : Prop :=
  ∀ number, context.Uses providers number → ∀ calls batch error,
    (world number).reply calls batch ≠ .raised (.typing error)

section Level
variable {count : Nat} {level : Level} {progress : Progress}
  (timely : context.Timely providers (context.plan providers policy))
  (place : (context.plan providers policy).levels[count]? = some level)
include timely place

theorem round_prompt (quiet : context.Quiet providers world) :
    ((context.plan providers policy).roundOf world progress level).Prompt := by
  intro attempt made fatal
  have candidate := round_candidate made
  have happened := round_attempted made
  clear made
  cases happened with
  | refused _ => rfl
  | idle _ _ => simp [Attempt.isFatal, Outcome.fatal?] at fatal
  | @called group number calls _ registered =>
    have calm := quiet number (candidate_uses timely place candidate registered) calls
      (group.batch progress.values)
    simp [Attempt.isFatal, outcome_calm calm] at fatal

theorem updates_apart : (progress.candidates level).Pairwise fun left right => ∀ records others,
    List.Disjoint (((context.plan providers policy).updates left records).map Prod.fst)
      (((context.plan providers policy).updates right others).map Prod.fst) := by
  have owned : ∀ (group : Group) (records : List Record) (name : String),
      name ∈ ((context.plan providers policy).updates group records).map Prod.fst →
      ∃ service ∈ group.names, ∃ field, context.bindings.get? name = some (.reference service field) := by
    intro group records name listed
    obtain ⟨⟨_, value⟩, written, rfl⟩ := List.mem_map.mp listed
    obtain ⟨answer, zipped, read⟩ := List.mem_flatMap.mp written
    obtain ⟨field, bound, _⟩ := mem_fieldWrites.mp read
    exact ⟨_, List.mem_map_of_mem (List.of_mem_zip zipped).1, field, bound⟩
  have once : ((progress.candidates level).flatMap Group.names).Nodup :=
    (timely.once count level place).sublist candidates_names
  refine (List.nodup_flatMap.mp once).2.imp fun apart records others name left right => ?_
  obtain ⟨service, listed, field, bound⟩ := owned _ records name left
  obtain ⟨twin, relisted, output, rebound⟩ := owned _ others name right
  rw [bound] at rebound
  cases rebound
  exact apart listed relisted

-- Had each group been settled when it ended, the values would be the same.
theorem settle_shuffled {order : List Attempt}
    (shuffled : order.Perm ((context.plan providers policy).roundOf world progress level).attempts)
    (name : String) :
    (order.foldl ((context.plan providers policy).settle overrides) progress).values.get? name =
      (((context.plan providers policy).roundOf world progress level).attempts.foldl
        ((context.plan providers policy).settle overrides) progress).values.get? name := by
  have once : (((context.plan providers policy).roundOf world progress level).attempts.flatMap fun attempt =>
      attempt.group.names).Nodup := timely.round_once place
  have written := shuffled.flatMap_right ((context.plan providers policy).writes overrides)
  rw [settle_all_eq, settle_all_eq]
  refine Table.get?_insertAll_perm written ?_ name
  rintro ⟨_, value⟩ member ⟨_, other⟩ found rfl
  exact writes_agree once (written.mem_iff.mp member) (written.mem_iff.mp found)

end Level

theorem run_untimed {plan : Plan} {tally : Tally} (accepted : Plan.build context providers policy = .ok plan)
    (quiet : context.Quiet providers world) :
    (plan.run world overrides tally).untimed = plan.run world.instant overrides tally := by
  obtain ⟨rfl, timely⟩ := build_timely accepted
  refine (runLevels_instant fun level member progress => ?_).symm
  obtain ⟨count, place⟩ := List.mem_iff_getElem?.mp member
  exact round_prompt timely place quiet

theorem run_any_pace {plan : Plan} {tally : Tally} {other : World}
    (accepted : Plan.build context providers policy = .ok plan) (quiet : context.Quiet providers world)
    (same : ∀ number calls batch, (world number).reply calls batch = (other number).reply calls batch) :
    (plan.run world overrides tally).calls = (plan.run other overrides tally).calls ∧
    (plan.run world overrides tally).result = (plan.run other overrides tally).result ∧
    (∀ level ∈ plan.levels, ∀ progress : Progress, (progress.candidates level).Pairwise fun left right =>
      ∀ records others, List.Disjoint ((plan.updates left records).map Prod.fst)
        ((plan.updates right others).map Prod.fst)) ∧
    ∀ level ∈ plan.levels, ∀ (progress : Progress) (order : List Attempt),
      order.Perm (plan.roundOf world progress level).attempts → ∀ name,
      (order.foldl (plan.settle overrides) progress).values.get? name =
        ((plan.roundOf world progress level).attempts.foldl (plan.settle overrides) progress).values.get? name := by
  have instants : world.instant = other.instant := by
    funext number
    have replies : (world number).reply = (other number).reply := funext₂ (same number)
    unfold World.instant
    rw [replies]
  have requiet : context.Quiet providers other := fun number used calls batch error =>
    same number calls batch ▸ quiet number used calls batch error
  have runs : (plan.run world overrides tally).untimed = (plan.run other overrides tally).untimed := by
    rw [run_untimed accepted quiet, run_untimed accepted requiet, instants]
  obtain ⟨rfl, timely⟩ := build_timely accepted
  refine ⟨?_, ?_, ?_, ?_⟩
  · rw [← calls_run_untimed, runs, calls_run_untimed]
  · rw [← result_untimed, runs, result_untimed]
  · intro level member progress
    obtain ⟨count, place⟩ := List.mem_iff_getElem?.mp member
    exact updates_apart timely place
  · intro level member progress order shuffled name
    obtain ⟨count, place⟩ := List.mem_iff_getElem?.mp member
    exact settle_shuffled timely place shuffled name

end Context

def crossing : Context where
  bindings := Table.ofList [("start", .constant "Oslo"), ("stop", .reference "out" "goal"),
    ("port", .reference "over" "goal")]
  services := Table.ofList [("out", ⟨"Trip", [⟨"from", "start"⟩]⟩), ("over", ⟨"Ferry", [⟨"from", "start"⟩]⟩)]

def seaways : Providers :=
  Table.ofList [("Trip", ⟨∅, .registered 0, false⟩), ("Ferry", ⟨∅, .registered 1, false⟩)]

def delayed (delay : Nat → Nat) : World := fun number =>
  ⟨(standstill number).reply, fun _ _ => delay number⟩

theorem crossing_paces :
    ((crossing.plan seaways .standard).run standstill ∅ .none).progress.attempts.map Attempt.delay = [0, 0] ∧
    ((crossing.plan seaways .standard).run (delayed fun number => 2 - number) ∅ .none).progress.attempts.map
      Attempt.delay = [2, 1] ∧
    ((crossing.plan seaways .standard).run standstill ∅ .none).calls =
      ((crossing.plan seaways .standard).run (delayed fun number => 2 - number) ∅ .none).calls ∧
    ((crossing.plan seaways .standard).run standstill ∅ .none).result =
      ((crossing.plan seaways .standard).run (delayed fun number => 2 - number) ∅ .none).result := by
  have quiet : crossing.Quiet seaways standstill := fun _ _ _ _ _ => nofun
  obtain ⟨calls, ends, _⟩ := @Context.run_any_pace _ _ _ standstill ∅ _ .none
    (delayed fun number => 2 - number) (show Plan.build crossing seaways .standard = .ok _ from rfl) quiet
    fun _ _ _ => rfl
  exact ⟨by decide +kernel, by decide +kernel, calls, ends⟩

end WiredViews
