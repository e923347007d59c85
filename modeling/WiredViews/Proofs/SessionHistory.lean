import WiredViews.Proofs.Registering
import WiredViews.Session

namespace WiredViews

structure Registration where
  name : String
  conduct : Conduct
  rows : List (String × List Value)

def Command.registration? : Command → Report → Option Registration
  | .register name (some conduct) rows, ⟨.ok _, _, _, _, _⟩ => some ⟨name, conduct, rows⟩
  | _, _ => none

def Command.plans? : Command → Option (String × Option String)
  | .compile label _ source _ | .build label _ source _ => some (label, source)
  | _ => none

def Command.observes : Command → Bool
  | .register .. | .snapshot _ | .compile .. | .build .. => false
  | _ => true

theorem observes_plans {command : Command} (observes : command.observes = true) : command.plans? = none := by
  cases command with
  | compile | build => cases observes
  | _ => rfl

theorem observes_registration {command : Command} (observes : command.observes = true) (report : Report) :
    command.registration? report = none := by
  cases command with
  | register => cases observes
  | _ => rfl

theorem plans_registration {command : Command} {label : String} {source : Option String}
    (plans : command.plans? = some (label, source)) (report : Report) : command.registration? report = none := by
  cases command with
  | compile | build => rfl
  | _ => cases plans

structure InForce (registrations : List Registration) (name : String) (number : Nat) (registration : Registration) :
    Prop where
  listed : registrations[number]? = some registration
  named : registration.name = name
  last : ∀ later other, number < later → registrations[later]? = some other → other.name ≠ name

-- Providers as the registrations have left them: names in the order of their first
-- registration, and under each name the last one.
structure Reflects (registrations : List Registration) (providers : Providers) : Prop where
  order : providers.keys = systemName :: distinct (registrations.map Registration.name)
  system : providers.get? systemName = some systemProvider
  held : ∀ name number registration, InForce registrations name number registration →
    ∃ model, Admits name registration.rows model ∧ providers.get? name = some ⟨model, .registered number, false⟩

section Registrations
variable {registrations : List Registration} {new registration : Registration} {name : String} {number : Nat}

theorem inForce_concat : InForce (registrations ++ [new]) name number registration ↔
    (new.name = name ∧ number = registrations.length ∧ registration = new) ∨
      (new.name ≠ name ∧ InForce registrations name number registration) := by
  have newest : (registrations ++ [new])[registrations.length]? = some new := List.getElem?_concat_length
  constructor
  · intro force
    obtain ⟨listed, named, last⟩ := force
    have within := (List.getElem?_eq_some_iff.mp listed).1
    rw [List.length_append, List.length_singleton] at within
    by_cases top : number = registrations.length
    · subst top
      rw [newest] at listed
      cases listed
      exact Or.inl ⟨named, rfl, rfl⟩
    · rw [List.getElem?_append_left (by omega)] at listed
      refine Or.inr ⟨last _ _ (by omega) newest, listed, named, fun later other above found => ?_⟩
      have inside := (List.getElem?_eq_some_iff.mp found).1
      exact last later other above ((List.getElem?_append_left inside).trans found)
  · intro given
    rcases given with ⟨named, rfl, rfl⟩ | ⟨differ, listed, named, last⟩
    · refine ⟨newest, named, fun later other above found => ?_⟩
      have within := (List.getElem?_eq_some_iff.mp found).1
      rw [List.length_append, List.length_singleton] at within
      omega
    · have inside := (List.getElem?_eq_some_iff.mp listed).1
      refine ⟨(List.getElem?_append_left inside).trans listed, named, fun later other above found => ?_⟩
      by_cases top : later = registrations.length
      · subst top
        rw [newest] at found
        cases found
        exact differ
      · have within := (List.getElem?_eq_some_iff.mp found).1
        rw [List.length_append, List.length_singleton] at within
        rw [List.getElem?_append_left (by omega)] at found
        exact last later other above found

theorem exists_inForce (listed : name ∈ registrations.map Registration.name) :
    ∃ number registration, InForce registrations name number registration := by
  induction registrations using List.reverseRecOn with
  | nil => cases listed
  | append_singleton registrations new ih =>
    by_cases same : new.name = name
    · exact ⟨_, _, inForce_concat.mpr (Or.inl ⟨same, rfl, rfl⟩)⟩
    · rw [List.map_append, List.mem_append] at listed
      have earlier := listed.resolve_right fun here => same (List.mem_singleton.mp here).symm
      obtain ⟨number, registration, force⟩ := ih earlier
      exact ⟨number, registration, inForce_concat.mpr (Or.inr ⟨same, force⟩)⟩

end Registrations

namespace Session

inductive Moves (session : Session) : Command → Session → Report → Prop where
  | registered {name : String} {conduct : Conduct} {rows : List (String × List Value)} {model : ArgumentModel}
      {answer : Answer} {notices : List Notice} (admits : Admits name rows model) :
      Moves session (.register name (some conduct) rows)
        { session with
          registry := ⟨session.registry.registered.insert name ⟨model, .registered session.conducts.length, false⟩⟩
          conducts := session.conducts ++ [conduct] }
        (.quiet (.ok answer) notices)
  | snapped {label : String} {report : Report} :
      Moves session (.snapshot label)
        { session with snapshots := session.snapshots.insert label session.registry.snapshot } report
  | planned {command : Command} {label : String} {source : Option String} {compiled : CompiledTemplate}
      {answer : Answer} {notices : List Notice} (plans : command.plans? = some (label, source))
      (found : session.source? source = .ok compiled.plan.providers) :
      Moves session command (session.keep label compiled) (.quiet (.ok answer) notices)
  | refused {command : Command} {error : CommandError} {notices : List Notice}
      (taken : ∀ label, command ≠ .snapshot label) : Moves session command session (.quiet (.error error) notices)
  | observed {command : Command} {tally : Tally} {report : Report} (observes : command.observes = true) :
      Moves session command { session with tally := tally } report

section Steps
variable {session : Session}

theorem register_moves (name : String) (conduct : Option Conduct) (rows : List (String × List Value)) :
    session.Moves (.register name conduct rows) (session.register name conduct rows).1
      (session.register name conduct rows).2 := by
  unfold register
  cases went : session.registry.register name (conduct.map fun _ => session.conducts.length) rows with
  | error fault => exact .refused nofun
  | ok after =>
    obtain ⟨number, model, callable, admits, rfl⟩ := Registry.register_exact.mp went
    cases conduct with
    | none => cases callable
    | some conduct =>
      cases callable
      exact .registered admits

theorem build_providers {context : Context} {providers : Providers} {policy : Policy} {plan : Plan}
    (accepted : Plan.build context providers policy = .ok plan) : plan.providers = providers := by
  unfold Plan.build at accepted
  split at accepted
  · cases accepted
  · cases accepted
    rfl

theorem build_moves (label : String) (context : Context) (source : Option String) (choice : PolicyChoice) :
    session.Moves (.build label context source choice) (session.build label context source choice).1
      (session.build label context source choice).2 := by
  unfold build
  cases found : session.source? source with
  | error error => exact .refused nofun
  | ok providers =>
    cases session.policy? choice with
    | error error => exact .refused nofun
    | ok policy =>
      cases accepted : Plan.build context providers policy with
      | error error =>
        simp only [accepted]
        exact .refused nofun
      | ok plan =>
        simp only [accepted]
        refine .planned rfl ?_
        rw [found, build_providers accepted]

theorem compile_moves (label text : String) (source : Option String) (choice : PolicyChoice) :
    session.Moves (.compile label text source choice) (session.compile label text source choice).1
      (session.compile label text source choice).2 := by
  unfold compile
  cases found : session.source? source with
  | error error => exact .refused nofun
  | ok providers =>
    cases session.policy? choice with
    | error error => exact .refused nofun
    | ok policy =>
      cases Template.read text with
      | error error => exact .refused nofun
      | ok template =>
        cases accepted : Plan.build template.context providers policy with
        | error error =>
          simp only [accepted]
          exact .refused nofun
        | ok plan =>
          simp only [accepted]
          refine .planned rfl ?_
          rw [found, build_providers accepted]

theorem run_moves (label : String) (overrides : Record) :
    session.Moves (.run label overrides) (session.run label overrides).1 (session.run label overrides).2 := by
  unfold run
  split
  · exact .refused nofun
  · dsimp only [execute]
    split <;> exact .observed rfl

theorem render_moves (label : String) (overrides : Record) (replacement : Option RenderFunction)
    (wanted : Option (List String)) :
    session.Moves (.render label overrides replacement wanted) (session.render label overrides replacement wanted).1
      (session.render label overrides replacement wanted).2 := by
  unfold render
  split
  · exact .refused nofun
  · dsimp only [execute]
    split
    · exact .observed rfl
    · split <;> exact .observed rfl

theorem call_moves (name : String) (batch : Batch) :
    session.Moves (.call name batch) (session.call name batch).1 (session.call name batch).2 := by
  unfold call
  split
  · exact .refused nofun
  · split
    · exact .refused nofun
    · exact .observed rfl

theorem perform_moves (session : Session) (command : Command) :
    session.Moves command (session.perform command).1 (session.perform command).2 := by
  cases command with
  | register name conduct rows => exact register_moves name conduct rows
  | get name => exact .observed rfl
  | contains name => cases name <;> exact .observed rfl
  | size => exact .observed rfl
  | snapshot label => exact .snapped
  | call name batch => exact call_moves name batch
  | compile label text source policy => exact compile_moves label text source policy
  | build label context source policy => exact build_moves label context source policy
  | run label overrides => exact run_moves label overrides
  | render label overrides replacement wanted => exact render_moves label overrides replacement wanted

end Steps

def reach (settings : Settings) (commands : List Command) : Session :=
  (performAll (.start settings) commands).1

def reports (settings : Settings) (commands : List Command) : List Report :=
  (performAll (.start settings) commands).2

def registrations (settings : Settings) (commands : List Command) : List Registration :=
  (commands.zip (reports settings commands)).filterMap fun step => step.1.registration? step.2

section History
variable {settings : Settings} {commands : List Command} {command : Command}

theorem performAll_concat (session : Session) : performAll session (commands ++ [command]) =
    (((performAll session commands).1.perform command).1,
      (performAll session commands).2 ++ [((performAll session commands).1.perform command).2]) := by
  induction commands generalizing session with
  | nil => rfl
  | cons first rest ih => simp only [List.cons_append, performAll, ih]

theorem length_reports : (reports settings commands).length = commands.length := by
  unfold reports
  generalize Session.start settings = session
  induction commands generalizing session with
  | nil => rfl
  | cons first rest ih => simp only [performAll, List.length_cons, ih]

theorem reach_concat : reach settings (commands ++ [command]) = ((reach settings commands).perform command).1 := by
  rw [reach, performAll_concat]
  rfl

theorem registrations_concat : registrations settings (commands ++ [command]) = registrations settings commands ++
    (command.registration? ((reach settings commands).perform command).2).toList := by
  have grown : reports settings (commands ++ [command]) =
      reports settings commands ++ [((reach settings commands).perform command).2] := by
    rw [reports, performAll_concat]
    rfl
  rw [registrations, grown, List.zip_append length_reports.symm, List.filterMap_append]
  cases found : command.registration? ((reach settings commands).perform command).2 <;> simp [registrations, found]

theorem registrations_prefix {earlier : List Command} (before : earlier <+: commands) :
    registrations settings earlier <+: registrations settings commands := by
  obtain ⟨later, rfl⟩ := before
  induction later using List.reverseRecOn with
  | nil => simp
  | append_singleton later command ih =>
    rw [← List.append_assoc, registrations_concat]
    exact ih.trans (List.prefix_append _ _)

end History

structure Follows (session : Session) (registrations : List Registration) : Prop where
  conducts : session.conducts = registrations.map Registration.conduct
  keys : session.registry.registered.keys = distinct (registrations.map Registration.name)
  held : ∀ name number registration, InForce registrations name number registration →
    ∃ model, Admits name registration.rows model ∧
      session.registry.registered.get? name = some ⟨model, .registered number, false⟩

theorem follows_start (settings : Settings) : (start settings).Follows [] := by
  refine ⟨rfl, rfl, fun name number registration force => ?_⟩
  cases force.listed

section Following
variable {session after : Session} {registrations : List Registration} {command : Command} {report : Report}

theorem follows_registered (follows : session.Follows registrations) {new : Registration} {model : ArgumentModel}
    (admits : Admits new.name new.rows model)
    (registry : after.registry.registered =
      session.registry.registered.insert new.name ⟨model, .registered session.conducts.length, false⟩)
    (conducts : after.conducts = session.conducts ++ [new.conduct]) :
    after.Follows (registrations ++ [new]) := by
  have count : session.conducts.length = registrations.length := by
    rw [follows.conducts, List.length_map]
  constructor
  case conducts =>
    rw [conducts, follows.conducts, List.map_append, List.map_singleton]
  case keys =>
    rw [registry, List.map_append, List.map_singleton, distinct_append_singleton]
    by_cases known : new.name ∈ session.registry.registered.keys
    · rw [Table.keys_insert_of_mem known, follows.keys]
      rw [follows.keys, mem_distinct] at known
      rw [if_pos known]
    · rw [Table.keys_insert_of_absent known, follows.keys]
      rw [follows.keys, mem_distinct] at known
      rw [if_neg known]
  case held =>
    intro name number registration force
    rw [registry, Table.get?_insert]
    rcases inForce_concat.mp force with ⟨named, rfl, rfl⟩ | ⟨differ, earlier⟩
    · subst named
      exact ⟨model, admits, by rw [if_pos rfl, count]⟩
    · rw [if_neg differ]
      exact follows.held name number registration earlier

theorem follows_move (follows : session.Follows registrations) (moves : session.Moves command after report) :
    after.Follows (registrations ++ (command.registration? report).toList) := by
  have idle : command.registration? report = none → after.registry = session.registry →
      after.conducts = session.conducts → after.Follows (registrations ++ (command.registration? report).toList) := by
    intro none registry conducts
    rw [none, Option.toList_none, List.append_nil]
    exact ⟨conducts.trans follows.conducts, registry ▸ follows.keys, registry ▸ follows.held⟩
  cases moves with
  | @registered name conduct rows model answer notices admits =>
    have fits : Admits (Registration.mk name conduct rows).name rows model := admits
    exact follows_registered follows fits rfl rfl
  | snapped => exact idle rfl rfl rfl
  | planned plans found => exact idle (plans_registration plans _) rfl rfl
  | refused taken =>
    refine idle ?_ rfl rfl
    cases command with
    | register name conduct rows => cases conduct <;> rfl
    | _ => rfl
  | observed observes => exact idle (observes_registration observes _) rfl rfl

theorem reach_follows (settings : Settings) (commands : List Command) :
    (reach settings commands).Follows (Session.registrations settings commands) := by
  induction commands using List.reverseRecOn with
  | nil => exact follows_start settings
  | append_singleton commands command ih =>
    rw [reach_concat, registrations_concat]
    exact follows_move ih (perform_moves _ command)

theorem Follows.free (follows : session.Follows registrations) : systemName ∉ session.registry.registered.keys := by
  rw [follows.keys, mem_distinct]
  intro listed
  obtain ⟨number, registration, force⟩ := exists_inForce listed
  obtain ⟨model, admits, _⟩ := follows.held systemName number registration force
  exact admits.free rfl

theorem Follows.reflects (follows : session.Follows registrations) :
    Reflects registrations session.registry.snapshot := by
  constructor
  case order => rw [Registry.snapshot_keys follows.free, follows.keys]
  case system =>
    rw [Registry.snapshot_get?, Registry.get?, Table.get?_eq_none.mpr follows.free]
    rfl
  case held =>
    intro name number registration force
    obtain ⟨model, admits, held⟩ := follows.held name number registration force
    refine ⟨model, admits, ?_⟩
    rw [Registry.snapshot_get?, Registry.get?, held]

theorem Follows.admitted (follows : session.Follows registrations) {name : String} {provider : Provider}
    (held : session.registry.snapshot.get? name = some provider) :
    (name = systemName ∧ provider = systemProvider) ∨
      ∃ rows, Admits name rows provider.model ∧ provider.reserved = false := by
  have reflects := follows.reflects
  have known : name ∈ session.registry.snapshot.keys := Table.mem_keys.mpr ⟨provider, held⟩
  rw [reflects.order, List.mem_cons, mem_distinct] at known
  rcases known with rfl | listed
  · rw [reflects.system] at held
    exact Or.inl ⟨rfl, (Option.some.inj held).symm⟩
  · obtain ⟨number, registration, force⟩ := exists_inForce listed
    obtain ⟨model, admits, found⟩ := reflects.held name number registration force
    rw [held] at found
    cases found
    exact Or.inr ⟨registration.rows, admits, rfl⟩

end Following

end Session
end WiredViews
