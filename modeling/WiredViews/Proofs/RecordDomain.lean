import WiredViews.Proofs.LevelBarrier
import WiredViews.Proofs.ValueEquations

namespace WiredViews

def World.KeepsBatches (world : World) : Prop :=
  ∀ (number calls : Nat) (batch left : Batch) (result : Returned),
    (world number).reply calls batch = .returned left result → batch.length ≤ left.length

namespace Context
variable {context : Context} {providers : Providers} {policy : Policy} {world : World} {overrides : Record}

-- A record is for the service at its place in the group. The group writes nothing else.
structure Fills (context : Context) (plan : Plan) (overrides : Record) (attempt : Attempt) (records : List Record) :
    Prop where
  filled : ∀ (progress : Progress) (index : Nat) (member : Member) (record : Record),
    attempt.group.members[index]? = some member → records[index]? = some record →
      context.Filled overrides (plan.settle overrides progress attempt).values member.name record
  only : ∀ (progress : Progress) (name : String),
    (∀ (index : Nat) (member : Member), attempt.group.members[index]? = some member → index < records.length →
      ∀ field, context.bindings.get? name = some (.reference member.name field) → name ∈ overrides.keys) →
    (plan.settle overrides progress attempt).values.get? name = progress.values.get? name

-- A group gives all outputs of its services or none, unless the provider has taken entries
-- out of its batch: then it may come with as many records as are left.
inductive TakesPart (context : Context) (plan : Plan) (world : World) (overrides : Record) (attempt : Attempt) :
    Prop where
  | whole {provider : Provider} {number calls : Nat} {left : Batch} {records : List Record}
      (held : plan.providers.get? attempt.group.provider = some provider)
      (callback : provider.callback = .registered number)
      (replied : ((world number).reply calls attempt.batch).Records left records)
      (kept : attempt.batch.length ≤ left.length) (enough : attempt.group.members.length ≤ records.length)
      (outcome : attempt.outcome = .resolved records) (fills : context.Fills plan overrides attempt records) :
      TakesPart context plan world overrides attempt
  | cut {provider : Provider} {number calls : Nat} {left : Batch} {records : List Record}
      (held : plan.providers.get? attempt.group.provider = some provider)
      (callback : provider.callback = .registered number)
      (replied : ((world number).reply calls attempt.batch).Records left records)
      (taken : left.length < attempt.batch.length) (fewer : records.length < attempt.group.members.length)
      (outcome : attempt.outcome = .resolved records) (fills : context.Fills plan overrides attempt records) :
      TakesPart context plan world overrides attempt
  | spoilt {provider : Provider} {number calls : Nat}
      (held : plan.providers.get? attempt.group.provider = some provider)
      (callback : provider.callback = .registered number)
      (replied : ∀ left records, ¬ ((world number).reply calls attempt.batch).Records left records)
      (outcome : ∀ records, attempt.outcome ≠ .resolved records)
      (silent : ∀ progress, (plan.settle overrides progress attempt).values = progress.values) :
      TakesPart context plan world overrides attempt
  | idle {provider : Provider} (held : plan.providers.get? attempt.group.provider = some provider)
      (callback : provider.callback = .placeholder) (outcome : ∀ records, attempt.outcome ≠ .resolved records)
      (silent : ∀ progress, (plan.settle overrides progress attempt).values = progress.values) :
      TakesPart context plan world overrides attempt

-- Constants, overrides, and the outputs of the services that the condition holds of.
def Names (context : Context) (overrides values : Record) (given : String → Prop) : Prop :=
  ∀ name, name ∈ values.keys ↔ (∃ text, context.bindings.get? name = some (.constant text)) ∨
    name ∈ overrides.keys ∨
    ∃ service field, context.bindings.get? name = some (.reference service field) ∧ given service

structure RecordDomain (context : Context) (plan : Plan) (world : World) (overrides : Record) (run : Run)
    (result : RunResult) : Prop where
  written : result.values = plan.snapshot overrides run.progress.rounds
  names : context.Names overrides result.values run.progress.Supplied
  supplied : ∀ service, run.progress.Supplied service → run.progress.Resolved service
  kept : world.KeepsBatches → context.Names overrides result.values run.progress.Resolved
  overridden : ∀ name value, overrides.get? name = some value →
    ∀ index, (plan.snapshot overrides (run.progress.rounds.take index)).get? name = some value
  constant : ∀ name text, context.bindings.get? name = some (.constant text) → name ∉ overrides.keys →
    ∀ index, (plan.snapshot overrides (run.progress.rounds.take index)).get? name = some (.str text)
  groups : ∀ attempt ∈ run.progress.attempts, context.TakesPart plan world overrides attempt

theorem settle_values (plan : Plan) (progress : Progress) (attempt : Attempt) :
    (plan.settle overrides progress attempt).values =
      progress.values.insertAll (plan.writes overrides attempt) := by
  rw [settle_eq]

theorem settle_silent {attempt : Attempt} (unresolved : ∀ records, attempt.outcome ≠ .resolved records)
    (plan : Plan) (progress : Progress) : (plan.settle overrides progress attempt).values = progress.values := by
  unfold Plan.settle
  cases ended : attempt.outcome with
  | resolved records => exact absurd ended (unresolved records)
  | placeholder | failed | rejected | mistyped => rfl

section Rounds
variable {rounds : List Round} {index : Nat} {level : Level} {before : Progress} {round : Round}
  (played : (context.plan providers policy).Played world overrides rounds index level before round)
  {attempt : Attempt} (made : attempt ∈ round.attempts)
include played made

theorem played_size : attempt.batch.length = attempt.group.members.length := by
  simp [played.batch made, Group.batch]

theorem played_fills (timely : context.Timely providers (context.plan providers policy)) {records : List Record}
    (resolved : attempt.outcome = .resolved records) :
    context.Fills (context.plan providers policy) overrides attempt records := by
  have call := played.made ▸ made
  have single := @mem_writes context providers policy overrides [attempt]
  simp only [List.flatMap_singleton] at single
  constructor
  case filled =>
    intro progress index member record placed held name field bound free
    have answered : (member, record) ∈ attempt.answers := answer_placed.mpr ⟨records, index, resolved, placed, held⟩
    have written : (name, record.read field) ∈ (context.plan providers policy).writes overrides attempt :=
      single.mpr ⟨Table.contains_eq_false.mpr free, (member, record), answered, field, bound, rfl⟩
    rw [settle_values]
    refine Table.get?_insertAll_of_agree written ?_
    intro row rewritten same
    subst same
    exact writes_agree (timely.round_once played.place) (List.mem_flatMap.mpr ⟨attempt, call, rewritten⟩)
      (List.mem_flatMap.mpr ⟨attempt, call, written⟩)
  case only =>
    intro progress name others
    rw [settle_values]
    refine Table.get?_insertAll_of_absent fun listed => ?_
    obtain ⟨⟨_, value⟩, written, rfl⟩ := List.mem_map.mp listed
    obtain ⟨free, answer, answered, field, bound, _⟩ := single.mp written
    obtain ⟨_, index, ended, placed, held⟩ := answer_placed.mp answered
    rw [resolved] at ended
    cases ended
    exact Table.contains_eq_false.mp free
      (others index answer.1 placed (List.getElem?_eq_some_iff.mp held).1 field bound)

end Rounds

section Runs
variable {tally : Tally} {result : RunResult}

theorem run_takes_part (timely : context.Timely providers (context.plan providers policy))
    (returned : ((context.plan providers policy).run world overrides tally).result = .ok result) {attempt : Attempt}
    (made : attempt ∈ ((context.plan providers policy).run world overrides tally).progress.attempts) :
    context.TakesPart (context.plan providers policy) world overrides attempt := by
  obtain ⟨round, member, inside⟩ := List.mem_flatMap.mp made
  obtain ⟨_, _, _, played⟩ := run_played_mem member
  cases run_invoked timely made (calm_not_rejected (run_calm returned round member) inside) with
  | @registered provider number calls held callback _ outcome =>
    by_cases replied : ∃ left records, ((world number).reply calls attempt.batch).Records left records
    · obtain ⟨left, records, replied⟩ := replied
      have resolved : attempt.outcome = .resolved records := outcome.trans (outcome_exact.mpr ⟨left, replied⟩)
      have fills := played_fills played inside timely resolved
      have size := played_size played inside
      have length := replied.length
      rcases Nat.lt_or_ge left.length attempt.batch.length with taken | kept
      · exact .cut held callback replied taken (by omega) resolved fills
      · exact .whole held callback replied kept (by omega) resolved fills
    · have unresolved : ∀ records, attempt.outcome ≠ .resolved records := by
        intro records resolved
        obtain ⟨left, given⟩ := outcome_exact.mp (outcome.symm.trans resolved)
        exact replied ⟨left, records, given⟩
      exact .spoilt held callback (fun left records given => replied ⟨left, records, given⟩) unresolved
        (settle_silent unresolved _)
  | placeholder held callback _ outcome =>
    have unresolved : ∀ records, attempt.outcome ≠ .resolved records := by simp [outcome]
    exact .idle held callback unresolved (settle_silent unresolved _)

theorem TakesPart.enough {plan : Plan} {attempt : Attempt} (part : context.TakesPart plan world overrides attempt)
    (keeps : world.KeepsBatches) {records : List Record} (resolved : attempt.outcome = .resolved records) :
    attempt.group.members.length ≤ records.length := by
  cases part with
  | whole _ _ _ _ enough outcome _ =>
    rw [outcome] at resolved
    cases resolved
    exact enough
  | @cut _ number calls left _ _ _ replied taken _ _ _ =>
    obtain ⟨_, _, equal, _⟩ := replied
    exact absurd taken (Nat.not_lt.mpr (keeps number calls _ left _ equal))
  | spoilt _ _ _ outcome _ | idle _ _ outcome _ => exact absurd resolved (outcome records)

theorem supplied_kept (timely : context.Timely providers (context.plan providers policy))
    (returned : ((context.plan providers policy).run world overrides tally).result = .ok result)
    (keeps : world.KeepsBatches) {service : String} :
    ((context.plan providers policy).run world overrides tally).progress.Supplied service ↔
      ((context.plan providers policy).run world overrides tally).progress.Resolved service := by
  refine ⟨Progress.Supplied.resolved, fun given => ?_⟩
  obtain ⟨attempt, made, ⟨records, resolved⟩, named⟩ := given
  obtain ⟨member, listed, rfl⟩ := List.mem_map.mp named
  obtain ⟨index, placed⟩ := List.getElem?_of_mem listed
  have enough := (run_takes_part timely returned made).enough keeps resolved
  have within := (List.getElem?_eq_some_iff.mp placed).1
  exact ⟨attempt, made, records, resolved, index, member, placed, rfl, Nat.lt_of_lt_of_le within enough⟩

theorem returned_names (returned : ((context.plan providers policy).run world overrides tally).result = .ok result) :
    context.Names overrides result.values
      ((context.plan providers policy).run world overrides tally).progress.Supplied := by
  intro name
  rw [run_values returned, mem_snapshot]
  refine or_congr_right (or_congr_right ?_)
  constructor
  · intro given
    obtain ⟨answer, answered, field, bound⟩ := given
    exact ⟨answer.1.name, field, bound, supplied_iff.mpr ⟨answer, answered, rfl⟩⟩
  · intro given
    obtain ⟨service, field, bound, supplied⟩ := given
    obtain ⟨answer, answered, rfl⟩ := supplied_iff.mp supplied
    exact ⟨answer, answered, field, bound⟩

end Runs
end Context

def excursion : Context where
  bindings := Table.ofList [("start", .constant "Oslo"), ("guest", .reference "asked" "name"),
    ("stop", .reference "out" "goal"), ("port", .reference "over" "goal"), ("back", .reference "home" "goal")]
  services := Table.ofList [("asked", ⟨"Arguments", []⟩), ("out", ⟨"Trip", [⟨"from", "start"⟩]⟩),
    ("over", ⟨"Ferry", [⟨"from", "start"⟩]⟩), ("home", ⟨"Ferry", [⟨"from", "port"⟩]⟩)]

def harbour : Providers :=
  seaways.insert systemName systemProvider

def visit : Record :=
  Table.ofList [("guest", .str "Ada"), ("port", .str "Moss"), ("season", .str "summer")]

-- A crew that leaves nothing in its batch and comes without records: nobody fails, and there is
-- neither a stop nor a way back.
def deserted : World := fun _ =>
  ⟨fun _ _ => .returned [] (.data (.list [])), fun _ _ => 0⟩

example : let progress := ((excursion.plan harbour ⟨.singleHop, .direct, true⟩).run deserted visit .none).progress
    progress.result.failed = [] ∧ progress.result.values.keys = ["start", "guest", "port", "season"] := by
  decide +kernel

end WiredViews
