import WiredViews.Distinct
import WiredViews.ServiceBlock
import WiredViews.SyntaxFault

namespace WiredViews

-- What stands to the right of a variable. A copy takes over what the other
-- variable means at this point, not what it will mean later.
inductive Assignment where
  | literal (value : String)
  | reference (service field : String)
  | copy (target : String)
deriving DecidableEq

inductive Declaration where
  | assign (name : String) (assignment : Assignment)
  | serve (name : String) (service : Service)
deriving DecidableEq

def readLiteral : List Char → Option (List Char)
  | '\'' :: rest => if rest.getLast? = some '\'' then some rest.dropLast else none
  | _ => none

def readReference (text : List Char) : Option (List Char × List Char) := do
  let (field, left) ← takeName text
  let left ← takeMark ['<', '-'] (skipBlanks left)
  let service ← takeMark ['@'] (skipBlanks left)
  if isName service then return (service, field) else none

def readCopy : List Char → Option (List Char)
  | '$' :: name => if isName name then some name else none
  | _ => none

def readAssignment (text : List Char) : Except SyntaxFault Assignment :=
  match readLiteral text with
  | some value => .ok (.literal (String.ofList value))
  | none =>
    match readReference text with
    | some (service, field) => .ok (.reference (String.ofList service) (String.ofList field))
    | none =>
      match readCopy text with
      | some target => .ok (.copy (String.ofList target))
      | none => .error (.variableValue (String.ofList text))

def readProvider : List Char → Option (List Char × Option (List Char))
  | [] => none
  | c :: rest =>
    if c.isUpper then
      let provider := c :: rest.takeWhile Char.isAlphanum
      match skipBlanks (rest.dropWhile Char.isAlphanum) with
      | [] => some (provider, none)
      | '{' :: block =>
        if block.getLast? = some '}' then some (provider, some block.dropLast) else none
      | _ => none
    else none

def readService (name : String) (text : List Char) : Except SyntaxFault Service :=
  match readProvider text with
  | none => .error (.serviceValue (String.ofList text))
  | some (provider, none) => .ok ⟨String.ofList provider, []⟩
  | some (provider, some inside) =>
    if isServiceBlock inside then
      let entries := blockEntries inside
      match firstRepeated (entries.map Dependency.argument) with
      | some argument => .error (.secondArgument argument name)
      | none => .ok ⟨String.ofList provider, entries⟩
    else .error (.serviceBlock name (String.ofList ('{' :: inside ++ ['}'])))

def readIdentifier : List Char → Option (Bool × List Char)
  | '$' :: name => if isName name then some (false, name) else none
  | '@' :: name => if isName name then some (true, name) else none
  | _ => none

namespace Declaration

def read (text : List Char) : Except SyntaxFault Declaration :=
  match cutAt '=' text with
  | none => .error (.notAssignment (String.ofList text))
  | some (left, right) =>
    let identifier := trim left
    match readIdentifier identifier with
    | none => .error (.badIdentifier (String.ofList identifier))
    | some (isService, letters) =>
      let name := String.ofList letters
      if startsWith reservedStart.toList letters then
        .error (.reservedName (String.ofList identifier))
      else if isService then
        (readService name (trim right)).map (.serve name)
      else
        (readAssignment (trim right)).map (.assign name)

end Declaration

def Context.assign (context : Context) (name : String) (meaning : Variable) : Context :=
  { context with bindings := context.bindings.insert name meaning }

def Context.serve (context : Context) (name : String) (service : Service) : Context :=
  { context with services := context.services.insert name service }

def Context.declare (context : Context) : Declaration → Except SyntaxFault Context
  | .serve name service => .ok (context.serve name service)
  | .assign name (.literal value) => .ok (context.assign name (.constant value))
  | .assign name (.reference service field) => .ok (context.assign name (.reference service field))
  | .assign name (.copy target) =>
    match context.bindings.get? target with
    | none => .error (.undefinedAlias target)
    | some meaning => .ok (context.assign name meaning)

end WiredViews
