import WiredViews.Table

namespace WiredViews

inductive RenderMode where
  | html
  | text
deriving DecidableEq

inductive Variable where
  | constant (value : String)
  | reference (service field : String)
deriving DecidableEq

structure Dependency where
  argument : String
  source : String
deriving DecidableEq

structure Service where
  provider : String
  dependencies : List Dependency
deriving DecidableEq

-- Nothing here says that the variables and services named are declared, or that
-- services do not wait for each other.
structure Context where
  bindings : Table String Variable
  services : Table String Service
deriving DecidableEq

structure View where
  mode : RenderMode
  text : String
  line : Nat
deriving DecidableEq

structure Template where
  views : Table String View
  context : Context
deriving DecidableEq

def RenderMode.name : RenderMode → String
  | .html => "html"
  | .text => "text"

def RenderMode.ofName? (name : String) : Option RenderMode :=
  if name = "html" then some .html
  else if name = "text" then some .text
  else none

def Variable.constant? : Variable → Option String
  | .constant value => some value
  | .reference _ _ => none

def Variable.reference? : Variable → Option (String × String)
  | .constant _ => none
  | .reference service field => some (service, field)

namespace Context

def empty : Context :=
  ⟨∅, ∅⟩

def constants (context : Context) : Table String String :=
  context.bindings.filterMapRows fun _ meaning => meaning.constant?

def references (context : Context) : Table String (String × String) :=
  context.bindings.filterMapRows fun _ meaning => meaning.reference?

end Context

theorem RenderMode.ofName?_name (mode : RenderMode) : RenderMode.ofName? mode.name = some mode := by
  cases mode <;> decide

end WiredViews
