import WiredViews.ArgumentCheck

-- What registered providers do when they are called. Nothing is assumed of them
-- but that an answer is a function of the batch and of the number of calls before.
namespace WiredViews

inductive ProviderFailure where
  | notSequence (provider typeName : String)
  | sizeMismatch (provider : String) (expected actual : Nat)
  | notRecord (provider typeName : String)
  | other (kind message : String)
deriving DecidableEq

inductive Returned where
  | data (value : Value)
  | tuple (items : List Value)
  | foreign (typeName : String)

inductive Raised where
  | typing (error : TypingError)
  | placeholder (provider : String)
  | failure (failure : ProviderFailure)

abbrev Batch := List Record

-- The list of its batch belongs to the provider, which may have left less or more in it.
inductive Reply where
  | returned (left : Batch) (result : Returned)
  | raised (error : Raised)

structure Conduct where
  reply : Nat → Batch → Reply
  delay : Nat → Batch → Nat

abbrev World := Nat → Conduct

abbrev Tally := Nat → Nat

def Tally.none : Tally := fun _ => 0

def Tally.count (tally : Tally) (number : Nat) : Tally := fun other =>
  if other = number then tally other + 1 else tally other

namespace ProviderFailure

def message : ProviderFailure → String
  | .notSequence provider typeName =>
    "provider \"" ++ provider ++ "\" returned " ++ typeName ++ ", expected a sequence of records"
  | .sizeMismatch provider expected actual =>
    "provider \"" ++ provider ++ "\" returned " ++ toString actual ++ " records for a batch of " ++
      toString expected
  | .notRecord provider typeName =>
    "provider \"" ++ provider ++ "\" returned a " ++ typeName ++ " record, expected a mapping"
  | .other _ message => message

def kind : ProviderFailure → String
  | .notSequence .. | .notRecord .. => "ProviderError"
  | .sizeMismatch .. => "BatchSizeMismatchError"
  | .other kind _ => kind

end ProviderFailure

def placeholderText (provider : String) : String :=
  "provider \"" ++ provider ++ "\" is satisfied only by runtime overrides"

def Returned.items? : Returned → Except String (List Value)
  | .data value =>
    match value.items? with
    | some items => .ok items
    | none => .error value.typeName
  | .tuple items => .ok items
  | .foreign typeName => .error typeName

def readRecords (provider : String) : List Value → Except ProviderFailure (List Record)
  | [] => .ok []
  | .object fields :: rest =>
    match readRecords provider rest with
    | .error failure => .error failure
    | .ok records => .ok (Table.ofList fields :: records)
  | value :: _ => .error (.notRecord provider value.typeName)

def Returned.records (provider : String) (size : Nat) (result : Returned) :
    Except ProviderFailure (List Record) :=
  match result.items? with
  | .error typeName => .error (.notSequence provider typeName)
  | .ok items =>
    if items.length = size then readRecords provider items
    else .error (.sizeMismatch provider size items.length)

end WiredViews
