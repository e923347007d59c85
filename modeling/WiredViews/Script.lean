import WiredViews.Conduct

namespace WiredViews

inductive TextPart where
  | fixed (words : String)
  | position
  | argument (name : String)
deriving DecidableEq

-- What a provider that only follows a script does with a batch. Scripts stand in
-- for real providers where templates are tried out.
inductive Behaviour where
  | constant (fields : List (String × Value))
  | echo (fields : List (String × String))
  | compose (fields : List (String × List TextPart))
  | fail (error : Raised)
  | failIf (argument : String) (equals : Value) (error : Raised) (otherwise : Behaviour)
  | give (result : Returned)

instance : Inhabited Behaviour := ⟨.constant []⟩

structure ScriptStep where
  behaviour : Behaviour
  delay : Nat

mutual
def Value.plain : Value → String
  | .str text => text
  | .list items => "|".intercalate (Value.plains items)
  | value => value.json

def Value.plains : List Value → List String
  | [] => []
  | item :: rest => Value.plain item :: Value.plains rest
end

def TextPart.fill (position : Nat) (record : Record) : TextPart → String
  | .fixed words => words
  | .position => toString position
  | .argument name => (record.read name).plain

def perEntry (batch : Batch) (fields : Nat → Record → List (String × Value)) : Reply :=
  .returned batch (.data (.list (batch.mapIdx fun position record => .object (fields position record))))

def Behaviour.reply (batch : Batch) : Behaviour → Reply
  | .constant fields => perEntry batch fun _ _ => fields
  | .echo fields => perEntry batch fun _ record =>
    fields.map fun field => (field.1, record.read field.2)
  | .compose fields => perEntry batch fun position record =>
    fields.map fun field => (field.1, .str (String.join (field.2.map (TextPart.fill position record))))
  | .fail error => .raised error
  | .failIf argument equals error otherwise =>
    if batch.any fun record => (record.read argument).same equals then .raised error
    else otherwise.reply batch
  | .give result => .returned batch result

def scriptStep (steps : List ScriptStep) (calls : Nat) : ScriptStep :=
  (steps[calls]?.or steps.getLast?).getD ⟨.give (.data .null), 0⟩

def Conduct.ofScript (steps : List ScriptStep) : Conduct where
  reply := fun calls batch => (scriptStep steps calls).behaviour.reply batch
  delay := fun calls _ => (scriptStep steps calls).delay

def Raised.ofKind (kind message : String) : Raised :=
  if kind = "ArgumentTypingError" then
    .typing ⟨"Picky", "picky", Table.ofList [("arg", .stated message)]⟩
  else if kind = "PlaceholderProviderError" then .placeholder message
  else if kind = "BatchSizeMismatchError" then .failure (.sizeMismatch message 1 2)
  else .failure (.other kind message)

end WiredViews
