import WiredViews.Proofs.CallCounts
import WiredViews.Proofs.SessionHistory

namespace WiredViews

def LastAt (kind : List Command → Command → Prop) (commands earlier : List Command) (command : Command) : Prop :=
  ∃ later, commands = earlier ++ command :: later ∧ kind earlier command ∧
    ∀ middle other rest, later = middle ++ other :: rest → ¬ kind (earlier ++ command :: middle) other

theorem lastAt_concat {kind : List Command → Command → Prop} {commands earlier : List Command}
    {new command : Command} : LastAt kind (commands ++ [new]) earlier command ↔
      (kind commands new ∧ earlier = commands ∧ command = new) ∨
        (¬ kind commands new ∧ LastAt kind commands earlier command) := by
  constructor
  · intro given
    obtain ⟨later, split, own, last⟩ := given
    rcases List.eq_nil_or_concat later with rfl | ⟨before, final, rfl⟩
    · obtain ⟨same, equal⟩ := List.append_inj' split rfl
      cases equal
      subst same
      exact Or.inl ⟨own, rfl, rfl⟩
    · rw [List.concat_eq_append, ← List.cons_append, ← List.append_assoc] at split
      obtain ⟨same, equal⟩ := List.append_inj' split rfl
      cases equal
      refine Or.inr ⟨same ▸ last before new [] (List.concat_eq_append ..), before, same, own, ?_⟩
      intro middle other rest split
      exact last middle other (rest ++ [new]) (by rw [split, List.concat_eq_append]; simp)
  · intro given
    rcases given with ⟨own, rfl, rfl⟩ | ⟨other, later, rfl, own, last⟩
    · exact ⟨[], rfl, own, fun middle other rest split => by simp at split⟩
    · refine ⟨later ++ [new], by simp, own, fun middle after rest split => ?_⟩
      rcases List.eq_nil_or_concat rest with rfl | ⟨before, final, rfl⟩
      · obtain ⟨same, equal⟩ := List.append_inj' split rfl
        cases equal
        exact same ▸ other
      · rw [List.concat_eq_append, ← List.cons_append, ← List.append_assoc] at split
        obtain ⟨same, _⟩ := List.append_inj' split rfl
        exact last middle after before same

namespace Session

-- The commands before the moment whose registrations a source of providers shows: the
-- registry shows all up to now, a snapshot those before it was last taken.
inductive Taken (commands : List Command) : Option String → List Command → Prop where
  | now : Taken commands none commands
  | before {label : String} {origin : List Command}
      (taken : LastAt (fun _ command => command = .snapshot label) commands origin (.snapshot label)) :
      Taken commands (some label) origin

structure Plans (session : Session) (label : String) (source : Option String) (command : Command) : Prop where
  asked : command.plans? = some (label, source)
  accepted : ∃ answer, (session.perform command).2.answer = .ok answer

def Planned (settings : Settings) (commands : List Command) (label : String) (origin : List Command) : Prop :=
  ∃ earlier command source,
    LastAt (fun earlier command => ∃ source, (reach settings earlier).Plans label source command)
      commands earlier command ∧
    (reach settings earlier).Plans label source command ∧ Taken earlier source origin

end Session

inductive Command.Executes : Command → String → Record → Prop where
  | run {label : String} {overrides : Record} : Executes (.run label overrides) label overrides
  | render {label : String} {overrides : Record} {replacement : Option RenderFunction}
      {wanted : Option (List String)} : Executes (.render label overrides replacement wanted) label overrides

-- A run of a template whose calls all go to the registrations in force, each with the
-- number of calls that the registration has had before, and with no other effect on the
-- session than that they are counted.
structure Session.RunsWith (session : Session) (registrations : List Registration) (plan : Plan)
    (after : Session) (report : Report) (run : Run) : Prop where
  calls : report.calls = (run.progress.attempts.filter Attempt.called).map fun attempt =>
    (attempt.group.provider, attempt.batch)
  replied : ∀ (index : Nat) (attempt : Attempt), run.progress.attempts[index]? = some attempt →
    attempt.called = true → ∃ number registration,
      InForce registrations attempt.group.provider number registration ∧
        attempt.Replied registration.conduct
          (session.tally number + callsTo plan.providers number (run.progress.attempts.take index))
  counted : ∀ number, after.tally number =
    session.tally number + callsTo plan.providers number run.progress.attempts
  only : after = { session with tally := after.tally }

namespace Session

structure Isolated (settings : Settings) (commands : List Command) : Prop where
  snapshots : ∀ label origin, Taken commands (some label) origin →
    ∃ providers, (reach settings commands).snapshots.get? label = some providers ∧
      Reflects (registrations settings origin) providers
  taken : ∀ label ∈ (reach settings commands).snapshots.keys, ∃ origin, Taken commands (some label) origin
  templates : ∀ label origin, Planned settings commands label origin →
    ∃ compiled, (reach settings commands).compiled.get? label = some compiled ∧
      Reflects (registrations settings origin) compiled.plan.providers ∧
      ∀ command overrides, Command.Executes command label overrides →
        (reach settings commands).RunsWith (registrations settings origin) compiled.plan
          ((reach settings commands).perform command).1 ((reach settings commands).perform command).2
          (compiled.plan.run (reach settings commands).world overrides (reach settings commands).tally)
  planned : ∀ label ∈ (reach settings commands).compiled.keys, ∃ origin, Planned settings commands label origin
  registering : ∀ name conduct rows,
    ((reach settings commands).perform (.register name conduct rows)).1.snapshots =
      (reach settings commands).snapshots ∧
    ((reach settings commands).perform (.register name conduct rows)).1.compiled =
      (reach settings commands).compiled
  refused : ∀ command label source error, Command.plans? command = some (label, source) →
    ((reach settings commands).perform command).2.answer = .error error →
      ((reach settings commands).perform command).1 = reach settings commands

section Steps
variable {session after : Session} {command : Command} {report : Report}

theorem Moves.snapshots (moves : session.Moves command after report) :
    (∃ label, command = .snapshot label ∧
      after.snapshots = session.snapshots.insert label session.registry.snapshot) ∨
    ((∀ label, command ≠ .snapshot label) ∧ after.snapshots = session.snapshots) := by
  cases moves with
  | registered => exact Or.inr ⟨nofun, rfl⟩
  | @snapped label => exact Or.inl ⟨label, rfl, rfl⟩
  | planned plans =>
    refine Or.inr ⟨fun label same => ?_, rfl⟩
    rw [same] at plans
    cases plans
  | refused taken => exact Or.inr ⟨taken, rfl⟩
  | observed observes =>
    refine Or.inr ⟨fun label same => ?_, rfl⟩
    rw [same] at observes
    cases observes

theorem Moves.compiled (moves : session.Moves command after report) :
    (∃ label source compiled, command.plans? = some (label, source) ∧ (∃ answer, report.answer = .ok answer) ∧
      session.source? source = .ok compiled.plan.providers ∧
      after.compiled = session.compiled.insert label compiled) ∨
    ((∀ label source answer, command.plans? = some (label, source) → report.answer ≠ .ok answer) ∧
      after.compiled = session.compiled) := by
  cases moves with
  | registered | snapped => exact Or.inr ⟨nofun, rfl⟩
  | planned plans found => exact Or.inl ⟨_, _, _, plans, ⟨_, rfl⟩, found, rfl⟩
  | refused => exact Or.inr ⟨nofun, rfl⟩
  | observed observes =>
    refine Or.inr ⟨fun label source answer plans => ?_, rfl⟩
    rw [observes_plans observes] at plans
    cases plans

theorem Moves.refused_plan (moves : session.Moves command after report) {label : String} {source : Option String}
    {error : CommandError} (plans : command.plans? = some (label, source)) (answer : report.answer = .error error) :
    after = session := by
  cases moves with
  | registered | snapped => cases plans
  | planned => cases answer
  | refused => rfl
  | observed observes =>
    rw [observes_plans observes] at plans
    cases plans

end Steps

section Origins
variable {settings : Settings} {commands origin : List Command} {label : String}

-- By induction on the commands from their end: the last one takes the snapshot anew, or it
-- leaves the label alone.
theorem taken_snapshot (settings : Settings) (taken : Taken commands (some label) origin) :
    (reach settings commands).snapshots.get? label = some (reach settings origin).registry.snapshot := by
  cases taken with
  | before taken =>
    induction commands using List.reverseRecOn with
    | nil =>
      obtain ⟨later, split, _⟩ := taken
      simp at split
    | append_singleton commands command ih =>
      rw [reach_concat]
      rcases (perform_moves (reach settings commands) command).snapshots with ⟨other, rfl, grown⟩ | ⟨none, same⟩
      · rw [grown, Table.get?_insert]
        rcases lastAt_concat.mp taken with ⟨own, rfl, _⟩ | ⟨differ, earlier⟩
        · cases own
          exact if_pos rfl
        · rw [if_neg fun equal => differ (congrArg Command.snapshot equal)]
          exact ih earlier
      · rw [same]
        rcases lastAt_concat.mp taken with ⟨own, _⟩ | ⟨_, earlier⟩
        · exact absurd own (none label)
        · exact ih earlier

theorem snapshot_taken (listed : label ∈ (reach settings commands).snapshots.keys) :
    ∃ origin, Taken commands (some label) origin := by
  induction commands using List.reverseRecOn with
  | nil => cases listed
  | append_singleton commands command ih =>
    by_cases own : command = .snapshot label
    · exact ⟨commands, .before (lastAt_concat.mpr (Or.inl ⟨own, rfl, own.symm⟩))⟩
    · rw [reach_concat] at listed
      have earlier : label ∈ (reach settings commands).snapshots.keys := by
        rcases (perform_moves (reach settings commands) command).snapshots with ⟨other, rfl, grown⟩ | ⟨_, same⟩
        · rw [grown, Table.mem_keys_insert] at listed
          exact listed.resolve_left fun equal => own (congrArg Command.snapshot equal.symm)
        · rwa [same] at listed
      obtain ⟨origin, taken⟩ := ih earlier
      cases taken with
      | before taken => exact ⟨origin, .before (lastAt_concat.mpr (Or.inr ⟨own, taken⟩))⟩

theorem taken_source (settings : Settings) {source : Option String}
    (taken : Taken commands source origin) :
    (reach settings commands).source? source = .ok (reach settings origin).registry.snapshot := by
  cases source with
  | none =>
    cases taken
    rfl
  | some label => simp only [source?, taken_snapshot settings taken]

theorem source_taken {source : Option String} {providers : Providers}
    (found : (reach settings commands).source? source = .ok providers) : ∃ origin, Taken commands source origin := by
  cases source with
  | none => exact ⟨commands, .now⟩
  | some label =>
    cases held : (reach settings commands).snapshots.get? label with
    | none => simp [source?, held] at found
    | some providers =>
      have listed : label ∈ (reach settings commands).snapshots.keys := Table.mem_keys.mpr ⟨providers, held⟩
      exact snapshot_taken listed

theorem planned_template (planned : Planned settings commands label origin) :
    ∃ compiled, (reach settings commands).compiled.get? label = some compiled ∧
      compiled.plan.providers = (reach settings origin).registry.snapshot := by
  obtain ⟨earlier, last, source, last_at, plans, taken⟩ := planned
  induction commands using List.reverseRecOn with
  | nil =>
    obtain ⟨later, split, _⟩ := last_at
    simp at split
  | append_singleton commands command ih =>
    rw [reach_concat]
    rcases (perform_moves (reach settings commands) command).compiled with
      ⟨other, given, compiled, asked, accepted, found, grown⟩ | ⟨refused, same⟩
    · rw [grown, Table.get?_insert]
      rcases lastAt_concat.mp last_at with ⟨_, rfl, rfl⟩ | ⟨differ, before⟩
      · -- the last command is the one that makes the template
        rw [plans.asked] at asked
        cases asked
        rw [taken_source settings taken] at found
        exact ⟨compiled, if_pos rfl, (Except.ok.inj found).symm⟩
      · have elsewhere : other ≠ label := by
          intro equal
          subst equal
          exact differ ⟨given, asked, accepted⟩
        rw [if_neg elsewhere]
        exact ih before
    · rw [same]
      rcases lastAt_concat.mp last_at with ⟨⟨source, again⟩, _⟩ | ⟨_, before⟩
      · obtain ⟨answer, accepted⟩ := again.accepted
        exact absurd accepted (refused label source answer again.asked)
      · exact ih before

theorem template_planned (listed : label ∈ (reach settings commands).compiled.keys) :
    ∃ origin, Planned settings commands label origin := by
  induction commands using List.reverseRecOn with
  | nil => cases listed
  | append_singleton commands command ih =>
    rw [reach_concat] at listed
    by_cases own : ∃ source, (reach settings commands).Plans label source command
    · obtain ⟨source, plans⟩ := own
      obtain ⟨answer, accepted⟩ := plans.accepted
      rcases (perform_moves (reach settings commands) command).compiled with
        ⟨other, given, compiled, asked, _, found, _⟩ | ⟨refused, _⟩
      · rw [plans.asked] at asked
        cases asked
        obtain ⟨origin, taken⟩ := source_taken found
        exact ⟨origin, commands, command, source, lastAt_concat.mpr (Or.inl ⟨⟨source, plans⟩, rfl, rfl⟩), plans, taken⟩
      · exact absurd accepted (refused label source answer plans.asked)
    · have earlier : label ∈ (reach settings commands).compiled.keys := by
        rcases (perform_moves (reach settings commands) command).compiled with
          ⟨other, given, compiled, asked, accepted, _, grown⟩ | ⟨_, same⟩
        · rw [grown, Table.mem_keys_insert] at listed
          refine listed.resolve_left fun equal => ?_
          subst equal
          exact own ⟨given, asked, accepted⟩
        · rwa [same] at listed
      obtain ⟨origin, first, last, source, last_at, rest⟩ := ih earlier
      exact ⟨origin, first, last, source, lastAt_concat.mpr (Or.inr ⟨own, last_at⟩), rest⟩

theorem Taken.origin_prefix {source : Option String} (taken : Taken commands source origin) : origin <+: commands := by
  cases taken with
  | now => exact List.prefix_refl _
  | before taken =>
    obtain ⟨later, rfl, _⟩ := taken
    exact List.prefix_append _ _

theorem Planned.origin_prefix (planned : Planned settings commands label origin) : origin <+: commands := by
  obtain ⟨earlier, last, source, ⟨later, rfl, _⟩, _, taken⟩ := planned
  exact taken.origin_prefix.trans (List.prefix_append _ _)

end Origins

section Runs
variable {session : Session} {all registrations : List Registration} {providers : Providers}

theorem Follows.world_eq (follows : session.Follows all) {number : Nat} {registration : Registration}
    (listed : all[number]? = some registration) : session.world number = registration.conduct := by
  rw [world, follows.conducts, List.getD_eq_getElem?_getD, List.getElem?_map, listed]
  rfl

theorem reflects_inForce (reflects : Reflects registrations providers) {name : String} {number : Nat}
    (held : (providers.get? name).map Provider.callback = some (.registered number)) :
    ∃ registration, InForce registrations name number registration := by
  obtain ⟨provider, found, callback⟩ := Option.map_eq_some_iff.mp held
  have listed : name ∈ providers.keys := Table.mem_keys.mpr ⟨provider, found⟩
  rw [reflects.order, List.mem_cons, mem_distinct] at listed
  cases listed with
  | inl system =>
    rw [system, reflects.system] at found
    cases found
    cases callback
  | inr named =>
    obtain ⟨last, registration, force⟩ := exists_inForce named
    obtain ⟨model, _, same⟩ := reflects.held name last registration force
    rw [found] at same
    cases same
    cases callback
    exact ⟨registration, force⟩

theorem calls_eq (run : Run) : run.calls = (run.progress.attempts.filter Attempt.called).map fun attempt =>
    (attempt.group.provider, attempt.batch) := by
  unfold Run.calls Round.calls Progress.attempts
  rw [List.filter_flatMap, List.map_flatMap]

theorem executes_performs {command : Command} {label : String} {overrides : Record} {compiled : CompiledTemplate}
    (executes : command.Executes label overrides) (held : session.compiled.get? label = some compiled) :
    (session.perform command).1 = (session.execute compiled overrides).1 ∧
      (session.perform command).2.calls = (session.execute compiled overrides).2.calls := by
  cases executes with
  | run =>
    simp only [perform, run, held]
    split <;> exact ⟨rfl, rfl⟩
  | render =>
    simp only [perform, render, held]
    split
    · exact ⟨rfl, rfl⟩
    · split <;> exact ⟨rfl, rfl⟩

theorem Follows.runs_with (follows : session.Follows all) (earlier : registrations <+: all)
    {compiled : CompiledTemplate} (reflects : Reflects registrations compiled.plan.providers) {command : Command}
    {label : String} {overrides : Record} (executes : command.Executes label overrides)
    (held : session.compiled.get? label = some compiled) :
    session.RunsWith registrations compiled.plan (session.perform command).1 (session.perform command).2
      (compiled.plan.run session.world overrides session.tally) := by
  obtain ⟨after, calls⟩ := executes_performs executes held
  have tallied := run_tallied compiled.plan session.world overrides session.tally
  rw [after]
  constructor
  case calls =>
    rw [calls]
    exact calls_eq _
  case replied =>
    intro index attempt made called
    obtain ⟨number, goes, replied⟩ := tallied.replied index attempt made called
    obtain ⟨registration, force⟩ := reflects_inForce reflects (goesTo_iff.mp goes).2
    -- registrations that came later have not moved this one
    obtain ⟨later, rfl⟩ := earlier
    have inside := (List.getElem?_eq_some_iff.mp force.listed).1
    rw [follows.world_eq ((List.getElem?_append_left inside).trans force.listed)] at replied
    exact ⟨number, registration, force, replied⟩
  case counted => exact tallied.counted
  case only => rfl

end Runs

theorem session_isolated (settings : Settings) (commands : List Command) : Isolated settings commands := by
  have reflected : ∀ origin, Reflects (registrations settings origin) (reach settings origin).registry.snapshot :=
    fun origin => (reach_follows settings origin).reflects
  constructor
  case snapshots =>
    intro label origin taken
    exact ⟨_, taken_snapshot settings taken, reflected origin⟩
  case taken => exact fun label listed => snapshot_taken listed
  case templates =>
    intro label origin planned
    obtain ⟨compiled, held, providers⟩ := planned_template planned
    have reflects : Reflects (registrations settings origin) compiled.plan.providers := providers ▸ reflected origin
    refine ⟨compiled, held, reflects, fun command overrides executes => ?_⟩
    have earlier : registrations settings origin <+: registrations settings commands :=
      registrations_prefix planned.origin_prefix
    exact (reach_follows settings commands).runs_with earlier reflects executes held
  case planned => exact fun label listed => template_planned listed
  case registering =>
    intro name conduct rows
    have moves := perform_moves (reach settings commands) (.register name conduct rows)
    constructor
    · rcases moves.snapshots with ⟨label, same, _⟩ | ⟨_, same⟩
      · cases same
      · exact same
    · rcases moves.compiled with ⟨label, source, compiled, plans, _⟩ | ⟨_, same⟩
      · cases plans
      · exact same
  case refused =>
    intro command label source error plans answer
    exact (perform_moves (reach settings commands) command).refused_plan plans answer

end Session
end WiredViews
