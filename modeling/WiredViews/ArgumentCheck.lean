import WiredViews.ArgumentModel
import WiredViews.Record

namespace WiredViews

inductive Shape where
  | text
  | list
deriving DecidableEq

structure ShapeRule where
  shape : Shape
  items : Option Shape
deriving DecidableEq

structure ArgumentRule where
  required : Bool
  nullable : Bool
  alternatives : List ShapeRule
deriving DecidableEq

def Kind.rule : Kind → ShapeRule
  | .text => ⟨.text, none⟩
  | .textList => ⟨.list, some .text⟩

def KindSet.rule (allowed : KindSet) : ArgumentRule :=
  ⟨true, false, allowed.kinds.map Kind.rule⟩

def Shape.name : Shape → String
  | .text => "string"
  | .list => "list"

def Shape.admits : Shape → Value → Bool
  | .text, .str _ => true
  | .list, .list _ => true
  | .list, .tuple _ => true
  | _, _ => false

inductive ItemFault where
  | null
  | wrongShape (shape : Shape)
deriving DecidableEq

inductive ShapeFault where
  | wrongShape (shape : Shape)
  | items (faults : List (Nat × ItemFault))
deriving DecidableEq

inductive Complaint where
  | missing
  | null
  | wrong (fault : ShapeFault)
  | noAlternative (faults : List ShapeFault)
  | stated (message : String)
deriving DecidableEq

def Shape.itemFault? (shape : Shape) : Value → Option ItemFault
  | .null => some .null
  | value => if shape.admits value then none else some (.wrongShape shape)

def itemFaults (shape : Shape) : Nat → List Value → List (Nat × ItemFault)
  | _, [] => []
  | position, value :: rest =>
    match shape.itemFault? value with
    | some fault => (position, fault) :: itemFaults shape (position + 1) rest
    | none => itemFaults shape (position + 1) rest

def ShapeRule.fault? (rule : ShapeRule) (value : Value) : Option ShapeFault :=
  if rule.shape.admits value then
    match rule.items, value.items? with
    | some shape, some items =>
      match itemFaults shape 0 items with
      | [] => none
      | faults => some (.items faults)
    | _, _ => none
  else some (.wrongShape rule.shape)

def faultOfAlternatives (rules : List ShapeRule) (value : Value) : Option Complaint :=
  match rules with
  | [rule] => (rule.fault? value).map .wrong
  | rules =>
    let faults := rules.filterMap fun rule => rule.fault? value
    if faults.length < rules.length then none else some (.noAlternative faults)

def ArgumentRule.complaint? (rule : ArgumentRule) : Option Value → Option Complaint
  | none => if rule.required then some .missing else none
  | some .null => if rule.nullable then none else some .null
  | some value => faultOfAlternatives rule.alternatives value

abbrev Complaints := Table String Complaint

def ArgumentModel.complaints (model : ArgumentModel) (record : Record) : Complaints :=
  model.filterMapRows fun argument allowed => allowed.rule.complaint? (record.get? argument)

def shapeEntry : String := "type"

-- A rule on items is also looked at when an object comes instead of a list. It
-- is then taken for rules on the fields of the object, and its entry for the shape
-- for the field of that name: an object with such a field has nothing to be
-- checked by, and the check breaks off. Alternatives are not prepared that way.
def ArgumentRule.breaksOn (rule : ArgumentRule) : Value → Bool
  | .object fields =>
    match rule.alternatives with
    | [⟨_, some _⟩] => (Value.field? shapeEntry fields).isSome
    | _ => false
  | _ => false

def ArgumentModel.breaksOn (model : ArgumentModel) (record : Record) : Bool :=
  model.rows.any fun row => row.2.rule.breaksOn (record.read row.1)

def breakdownText : String := "argument of type 'NoneType' is not iterable"

-- None if the check broke off; it does so before anything is complained about.
def ArgumentModel.check (model : ArgumentModel) (record : Record) : Option Complaints :=
  if model.breaksOn record then none else some (model.complaints record)

def missingText : String := "required field"
def nullText : String := "null value not allowed"
def noAlternativeText : String := "no definitions validate"

def Shape.faultText (shape : Shape) : String :=
  "must be of " ++ shape.name ++ " type"

def alternativeText (position : Nat) : String :=
  "anyof definition " ++ toString position

def ItemFault.text : ItemFault → String
  | .null => nullText
  | .wrongShape shape => shape.faultText

def ShapeFault.value : ShapeFault → Value
  | .wrongShape shape => .list [.str shape.faultText]
  | .items faults =>
    .list [.object (faults.map fun fault => (toString fault.1, .list [.str fault.2.text]))]

def Complaint.value : Complaint → Value
  | .missing => .list [.str missingText]
  | .null => .list [.str nullText]
  | .wrong fault => fault.value
  | .noAlternative faults =>
    .list [.str noAlternativeText,
      .object (faults.mapIdx fun position fault => (alternativeText position, fault.value))]
  | .stated message => .list [.str message]

def bracketed (text : String) : String :=
  "[" ++ text ++ "]"

def braced (rows : List String) : String :=
  "\x7b" ++ ", ".intercalate rows ++ "\x7d"

def ShapeFault.literal : ShapeFault → String
  | .wrongShape shape => bracketed (quoted shape.faultText)
  | .items faults =>
    bracketed (braced (faults.map fun fault =>
      toString fault.1 ++ ": " ++ bracketed (quoted fault.2.text)))

def Complaint.literal : Complaint → String
  | .missing => bracketed (quoted missingText)
  | .null => bracketed (quoted nullText)
  | .wrong fault => fault.literal
  | .noAlternative faults =>
    bracketed (quoted noAlternativeText ++ ", " ++ braced (faults.mapIdx fun position fault =>
      quoted (alternativeText position) ++ ": " ++ fault.literal))
  | .stated message => bracketed (quoted message)

def Complaints.value (complaints : Complaints) : Value :=
  .object (complaints.rows.map fun row => (row.1, row.2.value))

structure TypingError where
  provider : String
  service : String
  complaints : Complaints

def sortedNames (names : List String) : List String :=
  names.mergeSort fun left right => left ≤ right

def TypingError.message (error : TypingError) : String :=
  let rows := error.complaints.rows.mergeSort fun left right => left.1 ≤ right.1
  "arguments of service \"@" ++ error.service ++ "\" do not match provider \"" ++ error.provider ++
    "\" - " ++ "; ".intercalate (rows.map fun row => row.1 ++ ": " ++ row.2.literal)

end WiredViews
