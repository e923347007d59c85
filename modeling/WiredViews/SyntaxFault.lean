namespace WiredViews

inductive SyntaxFault where
  | emptyTemplate
  | noDataRegion
  | secondDataRegion
  | noViewRegion
  | viewBeforeData
  | dataHeader (line : String)
  | viewHeader (line : String)
  | unknownMode (mode : String)
  | secondView (name : String)
  | notAssignment (text : String)
  | badIdentifier (identifier : String)
  | reservedName (identifier : String)
  | undefinedAlias (target : String)
  | variableValue (text : String)
  | serviceValue (text : String)
  | serviceBlock (service block : String)
  | secondArgument (argument service : String)
deriving DecidableEq

def dataTag : String := "#data"
def viewTag : String := "#view"
def reservedStart : String := "internal_"

def SyntaxFault.message : SyntaxFault → String
  | .emptyTemplate => "empty template provided"
  | .noDataRegion => "required region " ++ dataTag ++ " not found"
  | .secondDataRegion => "region " ++ dataTag ++ " announced several times"
  | .noViewRegion => "required region " ++ viewTag ++ " not found"
  | .viewBeforeData => "region " ++ viewTag ++ " must be after region " ++ dataTag
  | .dataHeader line => "no characters are allowed after the " ++ dataTag ++ " header - \"" ++ line ++ "\""
  | .viewHeader line => "incorrect title for " ++ viewTag ++ " region - \"" ++ line ++ "\""
  | .unknownMode mode => "unknown render mode \"" ++ mode ++ "\""
  | .secondView name => "view \"" ++ name ++ "\" announced several times"
  | .notAssignment text => "expected \"identifier = value\" - \"" ++ text ++ "\""
  | .badIdentifier identifier => "invalid identifier \"" ++ identifier ++ "\""
  | .reservedName identifier =>
    "prefix \"" ++ reservedStart ++ "\" is not publicly available - \"" ++ identifier ++ "\""
  | .undefinedAlias target => "alias target \"$" ++ target ++ "\" is not defined"
  | .variableValue text => "invalid variable value \"" ++ text ++ "\""
  | .serviceValue text => "invalid service declaration \"" ++ text ++ "\""
  | .serviceBlock service block =>
    "invalid arguments for service \"@" ++ service ++ "\" - \"" ++ block ++ "\""
  | .secondArgument argument service =>
    "argument \"" ++ argument ++ "\" assigned several times in service \"@" ++ service ++ "\""

structure SyntaxError where
  fault : SyntaxFault
  line : Option Nat
deriving DecidableEq

def SyntaxError.message (error : SyntaxError) : String :=
  match error.line with
  | none => error.fault.message
  | some line => error.fault.message ++ " (line " ++ toString line ++ ")"

end WiredViews
