import WiredViews.Proofs.EntryAnswers
import WiredViews.Proofs.Snapshots

-- What the values of a run come to is said by equations between them, one for each name.
-- They have one solution, whatever the order of the calls.
namespace WiredViews
namespace Context
variable {context : Context} {providers : Providers} {policy : Policy} {world : World}
  {answers : Nat → Record → Record} {overrides : Record}

def expected (context : Context) (providers : Providers) (answers : Nat → Record → Record)
    (overrides values : Record) (name : String) : Option Value :=
  match overrides.get? name with
  | some value => some value
  | none =>
    match context.bindings.get? name with
    | none => none
    | some (.constant text) => some (.str text)
    | some (.reference service field) =>
      (context.recordOf providers answers values service).map fun record => record.read field

def Solves (context : Context) (providers : Providers) (answers : Nat → Record → Record) (overrides : Record)
    (trusted : String → Prop) (values : Record) : Prop :=
  ∀ name, context.Within overrides trusted name →
    values.get? name = context.expected providers answers overrides values name

section Expected
variable {values : Record} {name : String}

theorem expected_overridden {value : Value} (held : overrides.get? name = some value) :
    context.expected providers answers overrides values name = some value := by
  unfold expected
  rw [held]

theorem expected_unbound (free : name ∉ overrides.keys) (bound : context.bindings.get? name = none) :
    context.expected providers answers overrides values name = none := by
  unfold expected
  rw [Table.get?_eq_none.mpr free, bound]

theorem expected_constant {text : String} (free : name ∉ overrides.keys)
    (bound : context.bindings.get? name = some (.constant text)) :
    context.expected providers answers overrides values name = some (.str text) := by
  unfold expected
  rw [Table.get?_eq_none.mpr free, bound]

theorem expected_reference {service field : String} (free : name ∉ overrides.keys)
    (bound : context.bindings.get? name = some (.reference service field)) :
    context.expected providers answers overrides values name =
      (context.recordOf providers answers values service).map fun record => record.read field := by
  unfold expected
  rw [Table.get?_eq_none.mpr free, bound]

theorem expected_congr {first second : Record}
    (same : name ∉ overrides.keys → ∀ service field,
      context.bindings.get? name = some (.reference service field) →
      context.argumentsOf first service = context.argumentsOf second service) :
    context.expected providers answers overrides first name =
      context.expected providers answers overrides second name := by
  by_cases free : name ∈ overrides.keys
  · obtain ⟨value, held⟩ := Table.mem_keys.mp free
    rw [expected_overridden held, expected_overridden held]
  · cases bound : context.bindings.get? name with
    | none => rw [expected_unbound free bound, expected_unbound free bound]
    | some meaning =>
      cases meaning with
      | constant text => rw [expected_constant free bound, expected_constant free bound]
      | reference service field =>
        rw [expected_reference free bound, expected_reference free bound,
          recordOf_congr (same free service field bound)]

end Expected

theorem Solves.mono {trusted fewer : String → Prop} {values : Record}
    (solves : context.Solves providers answers overrides trusted values)
    (less : ∀ service, fewer service → trusted service) :
    context.Solves providers answers overrides fewer values :=
  fun name within => solves name fun free service field bound => less service (within free service field bound)

section Unique
variable {trusted : String → Prop} {first second : Record}
  (settled : context.unresolved = [])
  (closed : ∀ parent child, context.Feeds parent child → trusted child → trusted parent)
  (solved : context.Solves providers answers overrides trusted first)
  (resolved : context.Solves providers answers overrides trusted second)
include settled closed solved resolved

-- By induction on the rank: arguments are outputs of parents, which rank below, and the
-- equations for these outputs only look at the arguments of the parents.
theorem trusted_agree {service : String} (own : trusted service) :
    context.argumentsOf first service = context.argumentsOf second service := by
  induction height : context.rankOf service using Nat.strong_induction_on generalizing service with
  | _ rank ih =>
    refine @arguments_congr _ overrides _ _ _ fun name fed => ?_
    have within : context.Within overrides trusted name :=
      fun free parent field bound => closed parent service (fed free parent field bound) own
    rw [solved name within, resolved name within]
    refine expected_congr fun free parent field bound => ?_
    have lower := rank_lt_of_ancestor settled (.single (fed free parent field bound))
    exact ih _ (height ▸ lower) (within free parent field bound) rfl

theorem solutions_agree {name : String} (within : context.Within overrides trusted name) :
    first.get? name = second.get? name := by
  rw [solved name within, resolved name within]
  exact expected_congr fun free service field bound =>
    trusted_agree settled closed solved resolved (within free service field bound)

end Unique

def Behind (context : Context) (count : Nat) (progress : Progress) (service : String) : Prop :=
  context.rankOf service < count ∧ service ∉ progress.failed ∧ service ∉ progress.pruned

structure Accounted (context : Context) (providers : Providers) (answers : Nat → Record → Record)
    (overrides : Record) (count : Nat) (progress : Progress) : Prop where
  solved : context.Solves providers answers overrides (context.Behind count progress) progress.values
  silent : ∀ name service field, context.bindings.get? name = some (.reference service field) →
    name ∉ overrides.keys → context.recordOf providers answers progress.values service = none →
    progress.values.get? name = none
  fit : ∀ name ∈ context.services.keys, context.rankOf name < count → name ∉ progress.pruned →
    context.refusal? providers progress.values name = none

theorem accounted_start (tally : Tally) : context.Accounted providers answers overrides 0
    (.start (context.plan providers policy) overrides tally) := by
  have constants : (context.plan providers policy).constants = context.constants := rfl
  constructor
  case solved =>
    intro name within
    rw [get?_start, constants]
    by_cases free : name ∈ overrides.keys
    · obtain ⟨value, held⟩ := Table.mem_keys.mp free
      rw [expected_overridden held, held, Option.some_or]
    · rw [Table.get?_eq_none.mpr free, Option.none_or]
      cases bound : context.bindings.get? name with
      | none =>
        rw [expected_unbound free bound, Option.map_eq_none_iff, Option.eq_none_iff_forall_ne_some]
        intro text held
        simp [get?_constants.mp held] at bound
      | some meaning =>
        cases meaning with
        | constant text => rw [expected_constant free bound, get?_constants.mpr bound, Option.map_some]
        | reference service field => exact absurd (within free service field bound).1 (Nat.not_lt_zero _)
  case silent =>
    intro name service field bound free _
    rw [get?_start, constants, Table.get?_eq_none.mpr free, Option.none_or, Option.map_eq_none_iff,
      Option.eq_none_iff_forall_ne_some]
    intro text held
    simp [get?_constants.mp held] at bound
  case fit => exact fun _ _ low => absurd low (Nat.not_lt_zero _)

section Steps
variable {count : Nat} {level : Level} {progress : Progress}
  (serves : context.Serves providers answers world)
  (timely : context.Timely providers (context.plan providers policy))
  (place : (context.plan providers policy).levels[count]? = some level)
include serves timely place

theorem Accounted.silent_pass (before : context.Accounted providers answers overrides count progress)
    {name service field : String} (bound : context.bindings.get? name = some (.reference service field))
    (free : name ∉ overrides.keys)
    (nobody : context.recordOf providers answers
      ((context.plan providers policy).pass world overrides progress level).values service = none) :
    ((context.plan providers policy).pass world overrides progress level).values.get? name = none := by
  have still := recordOf_none progress.values nobody
  rw [pass_unwritten fun _ answer answered field rebound => ?_]
  · exact before.silent name service field bound free still
  · have record := (round_answer serves timely place answered).2
    rw [bound] at rebound
    cases rebound
    rw [still] at record
    cases record

theorem Accounted.solved_pass (before : context.Accounted providers answers overrides count progress)
    (calm : ((context.plan providers policy).roundOf world progress level).fatal? = none) :
    context.Solves providers answers overrides
      (context.Behind (count + 1) ((context.plan providers policy).pass world overrides progress level))
      ((context.plan providers policy).pass world overrides progress level).values := by
  intro name within
  have same : context.expected providers answers overrides
      ((context.plan providers policy).pass world overrides progress level).values name =
      context.expected providers answers overrides progress.values name :=
    expected_congr fun free service field bound =>
      pass_arguments timely place (Nat.lt_succ_iff.mp (within free service field bound).1)
  by_cases early : context.Within overrides (context.Behind count progress) name
  · rw [pass_low timely place fun free service field bound => (early free service field bound).1, same]
    exact before.solved name early
  · unfold Within at early
    push Not at early
    obtain ⟨free, service, field, bound, late⟩ := early
    obtain ⟨rank, spared, left⟩ := within free service field bound
    rw [pass_failed, List.mem_append, not_or] at spared
    rw [pass_pruned, List.mem_append, not_or] at left
    have here : context.rankOf service = count := by
      by_contra elsewhere
      exact late ⟨by omega, spared.1, left.1⟩
    cases record : context.recordOf providers answers progress.values service with
    | none =>
      rw [same, expected_reference free bound, record, Option.map_none]
      exact before.silent_pass serves timely place bound free (recordOf_none _ record)
    | some held =>
      obtain ⟨answer, answered, rfl, rfl⟩ := last_turn_answers serves timely place calm
        (timely.declared name service field bound) here left.1 spared.2 record
      rw [same, expected_reference free bound, record, Option.map_some]
      exact pass_written (timely.round_once place) answered name field bound free

theorem Accounted.fit_pass (before : context.Accounted providers answers overrides count progress)
    (calm : ((context.plan providers policy).roundOf world progress level).fatal? = none) {name : String}
    (known : name ∈ context.services.keys) (rank : context.rankOf name < count + 1)
    (left : name ∉ ((context.plan providers policy).pass world overrides progress level).pruned) :
    context.refusal? providers ((context.plan providers policy).pass world overrides progress level).values
      name = none := by
  rw [pass_pruned, List.mem_append, not_or] at left
  rw [refusal_congr (pass_arguments timely place (Nat.lt_succ_iff.mp rank))]
  rcases Nat.lt_succ_iff_lt_or_eq.mp rank with lower | here
  · exact before.fit name known lower left.1
  · exact last_turn_fits serves timely place calm known here left.1

theorem accounted_pass (before : context.Accounted providers answers overrides count progress)
    (calm : ((context.plan providers policy).roundOf world progress level).fatal? = none) :
    context.Accounted providers answers overrides (count + 1)
      ((context.plan providers policy).pass world overrides progress level) := by
  constructor
  case solved => exact before.solved_pass serves timely place calm
  case silent =>
    intro name service field bound free nobody
    exact before.silent_pass serves timely place bound free nobody
  case fit =>
    intro name known rank left
    exact before.fit_pass serves timely place calm known rank left

end Steps
end Context
end WiredViews
