import WiredViews.Table
import WiredViews.ValueText

namespace WiredViews

inductive Kind where
  | text
  | textList
deriving DecidableEq

inductive KindSet where
  | only (kind : Kind)
  | both
deriving DecidableEq

abbrev ArgumentModel := Table String KindSet

def Kind.name : Kind → String
  | .text => "string"
  | .textList => "string[]"

def Kind.ofValue? : Value → Option Kind
  | .str name =>
    if name = "string" then some .text else if name = "string[]" then some .textList else none
  | _ => none

def KindSet.kinds : KindSet → List Kind
  | .only kind => [kind]
  | .both => [.text, .textList]

def KindSet.ofKinds? (kinds : List Kind) : Option KindSet :=
  match kinds.contains .text, kinds.contains .textList with
  | true, true => some .both
  | true, false => some (.only .text)
  | false, true => some (.only .textList)
  | false, false => none

inductive ModelFault where
  | unknownKind (kind : Value)
  | noKind (argument : String)

def ModelFault.message : ModelFault → String
  | .unknownKind kind => kind.literal ++ " is not a valid ValueKind"
  | .noKind argument => "argument \"" ++ argument ++ "\" must allow at least one value kind"

def readKinds : List Value → Except ModelFault (List Kind)
  | [] => .ok []
  | value :: rest =>
    match Kind.ofValue? value with
    | none => .error (.unknownKind value)
    | some kind => (readKinds rest).map (kind :: ·)

def readKindSet (argument : String) (kinds : List Value) : Except ModelFault KindSet :=
  match readKinds kinds with
  | .error fault => .error fault
  | .ok kinds =>
    match KindSet.ofKinds? kinds with
    | none => .error (.noKind argument)
    | some allowed => .ok allowed

def readModelRows : ArgumentModel → List (String × List Value) → Except ModelFault ArgumentModel
  | model, [] => .ok model
  | model, (argument, kinds) :: rest =>
    match readKindSet argument kinds with
    | .error fault => .error fault
    | .ok allowed => readModelRows (model.insert argument allowed) rest

def ArgumentModel.read (rows : List (String × List Value)) : Except ModelFault ArgumentModel :=
  readModelRows ∅ (Table.ofList rows).rows

end WiredViews
