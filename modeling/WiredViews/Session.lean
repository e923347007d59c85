import WiredViews.ReadTemplate
import WiredViews.RunReport
import WiredViews.Settings

namespace WiredViews

structure CompiledTemplate where
  template : Template
  plan : Plan

structure Session where
  settings : Settings
  registry : Registry
  conducts : List Conduct
  tally : Tally
  snapshots : Table String Providers
  compiled : Table String CompiledTemplate

abbrev PolicyChoice := Option (List (String × Value))

inductive Command where
  | register (name : String) (conduct : Option Conduct) (model : List (String × List Value))
  | get (name : String)
  | contains (name : Option String)
  | size
  | snapshot (label : String)
  | call (name : String) (batch : Batch)
  | compile (label text : String) (source : Option String) (policy : PolicyChoice)
  | build (label : String) (context : Context) (source : Option String) (policy : PolicyChoice)
  | run (label : String) (overrides : Record)
  | render (label : String) (overrides : Record) (replacement : Option RenderFunction)
      (wanted : Option (List String))

inductive CommandError where
  | registration (fault : RegistrationFault)
  | notRegistered (name : String)
  | unknownSnapshot (label : String)
  | policy (fields : List String)
  | template (error : SyntaxError)
  | wiring (error : WiringError)
  | notCompiled (label : String)
  | run (error : RunError)
  | placeholder (provider : String)
  | failure (failure : ProviderFailure)
  | rendering (error : RenderError)

inductive Answer where
  | provider (name : String) (provider : Option Provider)
  | flags (flags : List Bool)
  | number (number : Nat)
  | names (names : List String)
  | returned (result : Returned)
  | compiled (views : List String) (plan : Plan)
  | plan (plan : Plan)
  | result (result : RunResult)
  | rendered (texts : Table String String)

structure Report where
  answer : Except CommandError Answer
  calls : List (String × Batch)
  events : List CallEvent
  cancelled : List String
  notices : List Notice

def Report.quiet (answer : Except CommandError Answer) (notices : List Notice) : Report :=
  ⟨answer, [], [], [], notices⟩

def Report.ofRun (run : Run) (answer : Except CommandError Answer) (notices : List Notice) : Report :=
  ⟨answer, run.calls, run.events, run.cancelled, run.notices ++ notices⟩

namespace Session

def start (settings : Settings) : Session :=
  ⟨settings, .empty, [], .none, ∅, ∅⟩

def idle : Conduct :=
  ⟨fun _ batch => .returned batch (.data .null), fun _ _ => 0⟩

def world (session : Session) : World := fun number =>
  session.conducts.getD number idle

def register (session : Session) (name : String) (conduct : Option Conduct)
    (model : List (String × List Value)) : Session × Report :=
  match session.registry.register name (conduct.map fun _ => session.conducts.length) model with
  | .error fault => (session, .quiet (.error (.registration fault)) [])
  | .ok after =>
    ({ session with registry := after, conducts := session.conducts ++ conduct.toList },
      .quiet (.ok (.provider name (after.get? name))) (session.registry.registerNotices after name))

def takeSnapshot (session : Session) (label : String) : Session × Report :=
  let providers := session.registry.snapshot
  ({ session with snapshots := session.snapshots.insert label providers },
    .quiet (.ok (.names providers.keys)) [])

def source? (session : Session) : Option String → Except CommandError Providers
  | none => .ok session.registry.snapshot
  | some label =>
    match session.snapshots.get? label with
    | some providers => .ok providers
    | none => .error (.unknownSnapshot label)

def policy? (session : Session) : PolicyChoice → Except CommandError Policy
  | none => .ok session.settings.policy
  | some fields =>
    match Policy.read fields with
    | .ok policy => .ok policy
    | .error names => .error (.policy names)

def keep (session : Session) (label : String) (compiled : CompiledTemplate) : Session :=
  { session with compiled := session.compiled.insert label compiled }

-- A context given directly comes without views. Those of the shortest template stand
-- in: one empty view, named in the second line.
def bareTemplate : Template :=
  ⟨Table.ofList [(defaultViewName, ⟨.html, "", 2⟩)], .empty⟩

def build (session : Session) (label : String) (context : Context) (source : Option String)
    (choice : PolicyChoice) : Session × Report :=
  match session.source? source, session.policy? choice with
  | .error error, _ | _, .error error => (session, .quiet (.error error) [])
  | .ok providers, .ok policy =>
    match Plan.build context providers policy with
    | .error error => (session, .quiet (.error (.wiring error)) [])
    | .ok plan =>
      (session.keep label ⟨bareTemplate, plan⟩,
        .quiet (.ok (.plan plan)) [plan.builtNotice context, bareTemplate.parsedNotice])

def compile (session : Session) (label text : String) (source : Option String)
    (choice : PolicyChoice) : Session × Report :=
  match session.source? source, session.policy? choice with
  | .error error, _ | _, .error error => (session, .quiet (.error error) [])
  | .ok providers, .ok policy =>
    match Template.read text with
    | .error error => (session, .quiet (.error (.template error)) [])
    | .ok template =>
      match Plan.build template.context providers policy with
      | .error error => (session, .quiet (.error (.wiring error)) [template.parsedNotice])
      | .ok plan =>
        (session.keep label ⟨template, plan⟩,
          .quiet (.ok (.compiled template.views.keys plan))
            [template.parsedNotice, plan.builtNotice template.context,
              .templateCompiled template.views.keys plan.levels.length])

-- A run leaves nothing behind in the session but the number of calls.
def execute (session : Session) (compiled : CompiledTemplate) (overrides : Record) : Session × Run :=
  let run := compiled.plan.run session.world overrides session.tally
  ({ session with tally := run.progress.tally }, run)

def run (session : Session) (label : String) (overrides : Record) : Session × Report :=
  match session.compiled.get? label with
  | none => (session, .quiet (.error (.notCompiled label)) [])
  | some compiled =>
    let (after, run) := session.execute compiled overrides
    match run.result with
    | .error error => (after, .ofRun run (.error (.run error)) [])
    | .ok result => (after, .ofRun run (.ok (.result result)) [])

def render (session : Session) (label : String) (overrides : Record)
    (replacement : Option RenderFunction) (wanted : Option (List String)) : Session × Report :=
  match session.compiled.get? label with
  | none => (session, .quiet (.error (.notCompiled label)) [])
  | some compiled =>
    let (after, run) := session.execute compiled overrides
    match run.result with
    | .error error => (after, .ofRun run (.error (.run error)) [])
    | .ok result =>
      let style := session.settings.style
      let notices := compiled.template.renderNotices style replacement wanted result.values
      match compiled.template.renderViews style replacement wanted result.values with
      | .error error => (after, .ofRun run (.error (.rendering error)) notices)
      | .ok texts => (after, .ofRun run (.ok (.rendered texts)) notices)

def callAnswer : Reply → Except CommandError Answer
  | .returned _ result => .ok (.returned result)
  | .raised (.typing error) => .error (.run (.typing error))
  | .raised (.placeholder provider) => .error (.placeholder provider)
  | .raised (.failure failure) => .error (.failure failure)

def call (session : Session) (name : String) (batch : Batch) : Session × Report :=
  match session.registry.get? name with
  | none => (session, .quiet (.error (.notRegistered name)) [])
  | some provider =>
    match provider.callback with
    | .placeholder => (session, .quiet (.error (.placeholder systemName)) [])
    | .registered number =>
      let reply := (session.world number).reply (session.tally number) batch
      ({ session with tally := session.tally.count number },
        ⟨callAnswer reply, [(name, batch)], [.started name, .ended name], [], []⟩)

def perform (session : Session) : Command → Session × Report
  | .register name conduct model => session.register name conduct model
  | .get name => (session, .quiet (.ok (.provider name (session.registry.get? name))) [])
  | .contains none => (session, .quiet (.ok (.flags [false])) [])
  | .contains (some name) =>
    (session, .quiet (.ok (.flags [session.registry.contains name, isSystemName name])) [])
  | .size => (session, .quiet (.ok (.number session.registry.size)) [])
  | .snapshot label => session.takeSnapshot label
  | .call name batch => session.call name batch
  | .compile label text source policy => session.compile label text source policy
  | .build label context source policy => session.build label context source policy
  | .run label overrides => session.run label overrides
  | .render label overrides replacement wanted => session.render label overrides replacement wanted

def performAll : Session → List Command → Session × List Report
  | session, [] => (session, [])
  | session, command :: rest =>
    let (after, report) := session.perform command
    let (last, reports) := performAll after rest
    (last, report :: reports)

end Session
end WiredViews
