import WiredViews.Value

namespace WiredViews

inductive Severity where
  | debug
  | info
  | warning
  | error
deriving DecidableEq

def Severity.name : Severity → String
  | .debug => "debug"
  | .info => "info"
  | .warning => "warning"
  | .error => "error"

inductive Notice where
  | checkFailed (message : String)
  | templateParsed (bindings services : Nat) (views : List String)
  | providerReplaced (provider : String)
  | providerRegistered (provider : String) (arguments : List String)
  | planBuilt (services roots levels : Nat) (strategy : String)
  | templateCompiled (views : List String) (levels : Nat)
  | levelStarted (level : Nat) (groups : List (String × Nat))
  | noCandidates (level : Nat)
  | typingFailed (provider service : String) (errors : Value)
  | placeholderSkipped (provider : String) (services : List String)
  | groupFailed (provider : String) (services : List String) (message kind : String)
  | runCompleted (levels : Nat) (failed skipped : List String)
  | viewRendered (view mode : String) (length : Nat)
  | viewFailed (view message : String)

namespace Notice

def severity : Notice → Severity
  | .checkFailed .. | .planBuilt .. | .templateCompiled .. | .runCompleted .. => .info
  | .providerReplaced .. | .groupFailed .. => .warning
  | .typingFailed .. | .viewFailed .. => .error
  | _ => .debug

def event : Notice → String
  | .checkFailed .. => "Template check failed"
  | .templateParsed .. => "Template parsed"
  | .providerReplaced .. => "Replacing registered provider"
  | .providerRegistered .. => "Provider registered"
  | .planBuilt .. => "Execution plan built"
  | .templateCompiled .. => "Template compiled"
  | .levelStarted .. => "Executing level"
  | .noCandidates .. => "No candidates left, stopping"
  | .typingFailed .. => "Argument typing failed"
  | .placeholderSkipped .. => "Placeholder provider skipped"
  | .groupFailed .. => "Provider group failed"
  | .runCompleted .. => "Execution completed"
  | .viewRendered .. => "View rendered"
  | .viewFailed .. => "View rendering failed"

def component? : Notice → Option String
  | .checkFailed .. | .templateCompiled .. => none
  | .templateParsed .. => some "parser"
  | .providerReplaced .. | .providerRegistered .. => some "registry"
  | .planBuilt .. => some "graph_builder"
  | .viewRendered .. | .viewFailed .. => some "renderer"
  | _ => some "executor"

def names (items : List String) : Value :=
  .list (items.map .str)

def count (number : Nat) : Value :=
  .int number

def details : Notice → List (String × Value)
  | .checkFailed message => [("error", .str message)]
  | .templateParsed bindings services views =>
    [("variables", count bindings), ("services", count services), ("views", names views)]
  | .providerReplaced provider => [("provider", .str provider)]
  | .providerRegistered provider arguments =>
    [("provider", .str provider), ("arguments", names arguments)]
  | .planBuilt services roots levels strategy =>
    [("services", count services), ("roots", count roots), ("levels", count levels),
      ("strategy", .str strategy)]
  | .templateCompiled views levels => [("views", names views), ("levels", count levels)]
  | .levelStarted level groups =>
    [("level", count level), ("groups", .object (groups.map fun group => (group.1, count group.2)))]
  | .noCandidates level => [("level", count level)]
  | .typingFailed provider service errors =>
    [("provider", .str provider), ("service", .str service), ("errors", errors)]
  | .placeholderSkipped provider services =>
    [("provider", .str provider), ("services", names services)]
  | .groupFailed provider services message kind =>
    [("provider", .str provider), ("services", names services), ("error", .str message),
      ("error_type", .str kind)]
  | .runCompleted levels failed skipped =>
    [("levels", count levels), ("failed", names failed), ("skipped", names skipped)]
  | .viewRendered view mode length =>
    [("view", .str view), ("mode", .str mode), ("length", count length)]
  | .viewFailed view message => [("view", .str view), ("error", .str message)]

def fields (notice : Notice) : List (String × Value) :=
  match notice.component? with
  | none => notice.details
  | some component => ("component", .str component) :: notice.details

end Notice
end WiredViews
