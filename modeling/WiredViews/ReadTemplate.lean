import WiredViews.Declaration
import WiredViews.LogicalLines
import WiredViews.Notice
import WiredViews.Regions

namespace WiredViews

def declareText (context : Context) (text : List Char) : Except SyntaxFault Context :=
  match Declaration.read text with
  | .error fault => .error fault
  | .ok declaration => context.declare declaration

def declareAll : Context → List (LogicalLine Nat) → Except SyntaxError Context
  | context, [] => .ok context
  | context, line :: rest =>
    match declareText context line.text with
    | .error fault => .error ⟨fault, some line.number⟩
    | .ok more => declareAll more rest

def numberedLines (text : List Char) : List NumberedLine :=
  numberLines (· + 1) (splitLines text)

-- Views are read before declarations, so a fault in a view is reported first
-- although it stands further down.
def Template.readLines (lines : List NumberedLine) : Except SyntaxError Template :=
  match Regions.ofLines lines with
  | .error error => .error error
  | .ok regions =>
    match readViews ∅ regions.views with
    | .error error => .error error
    | .ok views =>
      match declareAll .empty (assemble regions.declarations) with
      | .error error => .error error
      | .ok context => .ok ⟨views, context⟩

def Template.read (text : String) : Except SyntaxError Template :=
  if isAllBlank text.toList then .error ⟨.emptyTemplate, none⟩
  else Template.readLines (numberedLines text.toList)

structure TemplateCheck where
  template : Option Template
  errors : List String

def Template.check (text : String) : TemplateCheck :=
  match Template.read text with
  | .ok template => ⟨some template, []⟩
  | .error error => ⟨none, [error.message]⟩

def Template.parsedNotice (template : Template) : Notice :=
  .templateParsed template.context.bindings.size template.context.services.size template.views.keys

def Template.readNotices (text : String) : List Notice :=
  match Template.read text with
  | .ok template => [template.parsedNotice]
  | .error _ => []

def Template.checkNotices (text : String) : List Notice :=
  match Template.read text with
  | .ok template => [template.parsedNotice]
  | .error error => [.checkFailed error.message]

def TemplateCheck.success (check : TemplateCheck) : Bool :=
  check.template.isSome

def Template.isValid (text : String) : Bool :=
  !text.isEmpty && (Template.check text).success

def Template.validationNotices (text : String) : List Notice :=
  if text.isEmpty then [] else Template.checkNotices text

end WiredViews
