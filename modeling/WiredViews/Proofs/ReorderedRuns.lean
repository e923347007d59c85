import WiredViews.Proofs.LevelStrategies
import WiredViews.Proofs.Reordering

-- Runs of plans that are alike, with providers that answer entry by entry: level by level the
-- values are the same, so both runs are refused arguments at one level, or neither is at any.
namespace WiredViews

theorem member_arguments_same (member : Member) {first second : Record}
    (same : ∀ name, first.get? name = second.get? name) : member.arguments first = member.arguments second := by
  unfold Member.arguments Record.read Table.getD
  simp only [same]

theorem whole_candidates {progress : Progress} {level : Level} (whole : progress.Whole) {name : String} :
    (∃ group ∈ progress.candidates level, name ∈ group.names) ↔ name ∈ level.names := by
  constructor
  · intro given
    exact candidates_names.subset (List.mem_flatMap.mpr given)
  · intro named
    obtain ⟨group, grouped, inside⟩ := List.mem_flatMap.mp named
    obtain ⟨member, listed, rfl⟩ := List.mem_map.mp inside
    have kept : member ∈ group.members.filter fun member => !progress.isPruned member :=
      List.mem_filter.mpr ⟨listed, by simp [Progress.isPruned, whole.2]⟩
    exact ⟨_, mem_candidates.mpr ⟨List.ne_nil_of_mem kept, group, grouped, rfl⟩, List.mem_map_of_mem kept⟩

theorem whole_attempt (plan : Plan) (world : World) {progress : Progress} {level : Level} (whole : progress.Whole)
    {name : String} (named : name ∈ level.names) :
    ∃ attempt ∈ (plan.roundOf world progress level).attempts, ∃ member ∈ attempt.group.members,
      member.name = name := by
  obtain ⟨group, candidate, inside⟩ := (whole_candidates whole).mpr named
  rw [← round_groups plan world] at candidate
  obtain ⟨attempt, made, rfl⟩ := List.mem_map.mp candidate
  obtain ⟨member, listed, same⟩ := List.mem_map.mp inside
  exact ⟨attempt, made, member, listed, same⟩

theorem whole_idle {progress : Progress} {level : Level} (whole : progress.Whole) :
    (progress.candidates level).isEmpty = true ↔ level.names = [] := by
  rw [List.isEmpty_iff]
  constructor
  · intro idle
    apply List.eq_nil_iff_forall_not_mem.mpr
    intro name named
    obtain ⟨group, candidate, _⟩ := (whole_candidates whole).mpr named
    simp [idle] at candidate
  · intro nobody
    apply List.eq_nil_iff_forall_not_mem.mpr
    intro group candidate
    obtain ⟨member, listed⟩ := List.exists_mem_of_ne_nil _ (mem_candidates.mp candidate).1
    have named := (whole_candidates whole).mp ⟨group, candidate, List.mem_map_of_mem (f := Member.name) listed⟩
    simp [nobody] at named

namespace Context
variable {context other : Context} {providers : Providers} {policy : Policy} {world : World}
  {answers : Nat → Record → Record} {overrides : Record}

section Rounds
variable {count : Nat} {level : Level} {progress : Progress} (reliable : context.Reliable providers answers world)
  (timely : context.Timely providers (context.plan providers policy))
  (place : (context.plan providers policy).levels[count]? = some level) (whole : progress.Whole)
include reliable timely place whole

theorem whole_calm : ((context.plan providers policy).roundOf world progress level).fatal? = none ↔
    ∀ name ∈ level.names, context.refusal? providers progress.values name = none := by
  constructor
  · intro calm name named
    obtain ⟨attempt, made, member, listed, rfl⟩ := whole_attempt (context.plan providers policy) world whole named
    cases round_turn reliable.serves timely place made with
    | refused _ _ outcome => exact absurd outcome (calm_not_rejected calm made _)
    | idle fit _ _ => exact fit member listed
    | answered fit _ _ => exact fit member listed
    | failed fit _ => exact fit member listed
  · intro fit
    rw [fatal?_eq_none]
    intro attempt made
    cases round_turn reliable.serves timely place made with
    | @refused _ member listed unfit _ =>
      have named := (whole_candidates whole).mp ⟨_, round_candidate made, List.mem_map_of_mem listed⟩
      rw [fit _ named] at unfit
      cases unfit
    | idle _ _ outcome => simp [Attempt.isFatal, outcome, Outcome.fatal?]
    | answered _ _ outcome => simp [Attempt.isFatal, outcome, Outcome.fatal?]
    | failed _ outcome => simp [Attempt.isFatal, outcome, Outcome.fatal?]

theorem whole_written (calm : ((context.plan providers policy).roundOf world progress level).fatal? = none)
    {name service field : String} {record : Record} (free : name ∉ overrides.keys)
    (bound : context.bindings.get? name = some (.reference service field)) (named : service ∈ level.names)
    (expected : context.recordOf providers answers progress.values service = some record) :
    ((context.plan providers policy).pass world overrides progress level).values.get? name =
      some (record.read field) := by
  obtain ⟨attempt, made, member, listed, rfl⟩ := whole_attempt (context.plan providers policy) world whole named
  obtain ⟨answer, answered, same, rfl⟩ := turn_answers reliable.serves timely place calm made listed
    (fun failure => round_unfailed reliable timely place made failure) expected
  exact pass_written (timely.round_once place) answered name field (same ▸ bound) free

theorem whole_unwritten {name : String} (silent : name ∉ overrides.keys → ∀ service field,
      context.bindings.get? name = some (.reference service field) → service ∈ level.names →
      context.recordOf providers answers progress.values service = none) :
    ((context.plan providers policy).pass world overrides progress level).values.get? name =
      progress.values.get? name := by
  apply pass_unwritten
  intro free answer answered field bound
  obtain ⟨attempt, made, listed⟩ := answer_member answered
  have named := (whole_candidates whole).mp ⟨_, round_candidate made, List.mem_map_of_mem listed⟩
  have expected := (round_answer reliable.serves timely place answered).2
  rw [silent free _ field bound named] at expected
  cases expected

end Rounds

section Steps
variable (alike : context.Alike other)
include alike

theorem Alike.uses {number : Nat} : other.Uses providers number ↔ context.Uses providers number := by
  simp only [Uses, alike.rows]

theorem Alike.reliable (reliable : context.Reliable providers answers world) :
    other.Reliable providers answers world :=
  fun number used => reliable number (alike.uses.mp used)

section Values
variable {first second : Record} (same : ∀ name, first.get? name = second.get? name) {service : String}
include same

theorem Alike.recordOf : context.recordOf providers answers first service =
    other.recordOf providers answers second service := by
  unfold Context.recordOf argumentsOf
  rw [alike.services]
  cases other.services.get? service with
  | none => rfl
  | some held =>
    dsimp only
    rw [member_arguments_same _ same]

theorem Alike.refusal : context.refusal? providers first service = other.refusal? providers second service := by
  unfold refusal? Member.error?
  rw [alike.services]
  cases other.services.get? service with
  | none => rfl
  | some held =>
    dsimp only
    rw [member_arguments_same _ same]

end Values

variable {count place : Nat} {level twin : Level} {progress state : Progress}
  (reliable : context.Reliable providers answers world)
  (timely : context.Timely providers (context.plan providers policy))
  (found : (context.plan providers policy).levels[count]? = some level)
  (shifted : (other.plan providers policy).levels[place]? = some twin)
  (names : level.names.Perm twin.names) (whole : progress.Whole) (intact : state.Whole)
  (same : ∀ name, progress.values.get? name = state.values.get? name)
include reliable timely found shifted names whole intact same

theorem Alike.calm : ((context.plan providers policy).roundOf world progress level).fatal? = none ↔
    ((other.plan providers policy).roundOf world state twin).fatal? = none := by
  rw [whole_calm reliable timely found whole,
    whole_calm (alike.reliable reliable) (alike_timely alike timely) shifted intact]
  simp only [names.mem_iff, alike.refusal same]

theorem Alike.pass (calm : ((context.plan providers policy).roundOf world progress level).fatal? = none)
    (name : String) : ((context.plan providers policy).pass world overrides progress level).values.get? name =
      ((other.plan providers policy).pass world overrides state twin).values.get? name := by
  have back := alike.reliable reliable
  have later := alike_timely alike timely
  by_cases silent : name ∉ overrides.keys → ∀ service field,
      context.bindings.get? name = some (.reference service field) → service ∈ level.names →
      context.recordOf providers answers progress.values service = none
  · rw [whole_unwritten reliable timely found whole silent, same name]
    symm
    apply whole_unwritten back later shifted intact
    intro free service field bound named
    rw [← alike.bindings] at bound
    rw [← alike.recordOf same]
    exact silent free service field bound (names.mem_iff.mpr named)
  · push Not at silent
    obtain ⟨free, service, field, bound, named, some_record⟩ := silent
    obtain ⟨record, expected⟩ := Option.ne_none_iff_exists'.mp some_record
    have quiet := (alike.calm reliable timely found shifted names whole intact same).mp calm
    rw [whole_written reliable timely found whole calm free bound named expected]
    symm
    exact whole_written back later shifted intact quiet free (alike.bindings name ▸ bound)
      (names.mem_iff.mp named) (alike.recordOf same ▸ expected)

end Steps

-- By induction on the levels that are left, which are alike one by one.
theorem Alike.levels_run (alike : context.Alike other) (reliable : context.Reliable providers answers world)
    (timely : context.Timely providers (context.plan providers policy)) {rest twins passed before : List Level}
    (levels : List.Forall₂ (fun level twin : Level => level.index = twin.index ∧ level.names.Perm twin.names)
      rest twins)
    (split : (context.plan providers policy).levels = passed ++ rest)
    (parted : (other.plan providers policy).levels = before ++ twins) {progress state : Progress}
    (whole : progress.Whole) (intact : state.Whole)
    (same : ∀ name, progress.values.get? name = state.values.get? name) :
    Together (fun result outcome => result.values.Agree Eq outcome.values)
      ((context.plan providers policy).runLevels world overrides progress rest).result
      ((other.plan providers policy).runLevels world overrides state twins).result := by
  induction levels generalizing passed before progress state with
  | nil => exact .accepted (Table.agree_eq.mpr same)
  | @cons level twin rest twins here _ ih =>
    have found := level_next split
    have shifted := level_next parted
    rw [runLevels_cons, runLevels_cons]
    by_cases idle : level.names = []
    · have nobody : twin.names = [] := List.nil_perm.mp (idle ▸ here.2)
      rw [if_pos ((whole_idle whole).mpr idle), if_pos ((whole_idle intact).mpr nobody)]
      exact .accepted (Table.agree_eq.mpr same)
    · have busy : twin.names ≠ [] := fun nobody => idle (List.perm_nil.mp (nobody ▸ here.2))
      have calm := @Alike.calm _ _ _ _ world _ alike _ _ _ _ _ _ reliable timely found shifted here.2 whole intact same
      rw [if_neg fun none_left => idle ((whole_idle whole).mp none_left),
        if_neg fun none_left => busy ((whole_idle intact).mp none_left)]
      cases fatal : ((context.plan providers policy).roundOf world progress level).fatal? with
      | some error =>
        cases fated : ((other.plan providers policy).roundOf world state twin).fatal? with
        | some wrong => exact .refused error wrong
        | none =>
          rw [calm.mpr fated] at fatal
          cases fatal
      | none =>
        have back := alike.reliable reliable
        have later := alike_timely alike timely
        rw [calm.mp fatal]
        refine ih (split.trans (List.append_cons passed level rest)) (parted.trans (List.append_cons before twin twins))
          ?_ ?_ (alike.pass reliable timely found shifted here.2 whole intact same fatal)
        · exact whole_pass whole fun attempt made => round_unfailed reliable timely found made
        · exact whole_pass intact fun attempt made => round_unfailed back later shifted made

theorem Alike.run (alike : context.Alike other) (timely : context.Timely providers (context.plan providers policy))
    (pure : context.Pure providers world) (overrides : Record) (tally later : Tally) :
    Together (fun result outcome => result.values.Agree Eq outcome.values)
      ((context.plan providers policy).run world overrides tally).result
      ((other.plan providers policy).run world overrides later).result := by
  obtain ⟨answers, reliable⟩ := pure.reliable
  apply @Alike.levels_run _ _ _ _ _ _ _ alike reliable timely _ _ [] [] (alike.levels timely) rfl rfl
  · exact ⟨rfl, rfl⟩
  · exact ⟨rfl, rfl⟩
  · intro name
    have constants : context.constants.get? name = other.constants.get? name := Table.agree_eq.mp alike.constants name
    rw [get?_start, get?_start]
    exact congrArg (fun held => (overrides.get? name).or (held.map Value.str)) constants

end Context
end WiredViews
