import WiredViews.ArgumentCheck
import WiredViews.Names
import WiredViews.Notice

namespace WiredViews

-- What a call goes to: nothing at all, for providers whose outputs only come
-- from overrides, or the registration with the given number.
inductive Callback where
  | placeholder
  | registered (number : Nat)
deriving DecidableEq

structure Provider where
  model : ArgumentModel
  callback : Callback
  reserved : Bool
deriving DecidableEq

abbrev Providers := Table String Provider

def systemName : String := "Arguments"

def systemProvider : Provider :=
  ⟨∅, .placeholder, true⟩

def isSystemName (name : String) : Bool :=
  name == systemName

inductive RegistrationFault where
  | systemProvider (name : String)
  | invalidName (name : String)
  | notCallable (name : String)
  | invalidModel (name : String) (fault : ModelFault)
  | invalidArgument (argument name : String)

def RegistrationFault.message : RegistrationFault → String
  | .systemProvider name => "provider \"" ++ name ++ "\" is a system provider and cannot be registered"
  | .invalidName name => "invalid provider name \"" ++ name ++ "\""
  | .notCallable name => "callback for provider \"" ++ name ++ "\" is not callable"
  | .invalidModel name fault =>
    "invalid argument model for provider \"" ++ name ++ "\": " ++ fault.message
  | .invalidArgument argument name =>
    "invalid argument name \"" ++ argument ++ "\" for provider \"" ++ name ++ "\""

-- A grammar that is checked up to the end of the last line: one line feed after
-- the name is let through and stays part of the name.
def fitsLine (grammar : List Char → Bool) (name : String) : Bool :=
  let text := name.toList
  grammar text || (text.getLast? == some '\n' && grammar text.dropLast)

structure Registry where
  registered : Providers
deriving DecidableEq

namespace Registry

def empty : Registry :=
  ⟨∅⟩

def register (registry : Registry) (name : String) (callback : Option Nat)
    (model : List (String × List Value)) : Except RegistrationFault Registry :=
  if isSystemName name then .error (.systemProvider name)
  else if !fitsLine isProviderName name then .error (.invalidName name)
  else
    match callback with
    | none => .error (.notCallable name)
    | some number =>
      match ArgumentModel.read model with
      | .error fault => .error (.invalidModel name fault)
      | .ok model =>
        match model.keys.find? fun argument => !fitsLine isName argument with
        | some argument => .error (.invalidArgument argument name)
        | none => .ok ⟨registry.registered.insert name ⟨model, .registered number, false⟩⟩

def get? (registry : Registry) (name : String) : Option Provider :=
  match registry.registered.get? name with
  | some provider => some provider
  | none => if isSystemName name then some systemProvider else none

def contains (registry : Registry) (name : String) : Bool :=
  registry.registered.contains name || isSystemName name

def size (registry : Registry) : Nat :=
  registry.registered.size

def snapshot (registry : Registry) : Providers :=
  ((∅ : Providers).insert systemName systemProvider).insertAll registry.registered.rows

def registerNotices (before after : Registry) (name : String) : List Notice :=
  (if before.registered.contains name then [.providerReplaced name] else []) ++
    match after.registered.get? name with
    | some provider => [.providerRegistered name (sortedNames provider.model.keys)]
    | none => []

end Registry
end WiredViews
