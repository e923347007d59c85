import WiredViews.Decimal

namespace WiredViews

inductive Value where
  | null
  | bool (flag : Bool)
  | int (number : Int)
  | decimal (number : Decimal)
  | str (text : String)
  | list (items : List Value)
  | tuple (items : List Value)
  | object (fields : List (String × Value))
deriving Inhabited

namespace Value

def items? : Value → Option (List Value)
  | .list items => some items
  | .tuple items => some items
  | _ => none

def whole? : Value → Option Int
  | .bool flag => some (if flag then 1 else 0)
  | .int number => some number
  | .decimal number => number.whole?
  | _ => none

def field? (name : String) : List (String × Value) → Option Value
  | [] => none
  | row :: rest => if row.1 = name then some row.2 else field? name rest

mutual
-- Numbers are compared by what they are worth, objects without regard to order.
def same : Value → Value → Bool
  | .null, .null => true
  | .str left, .str right => left == right
  | .list left, .list right => sameItems left right
  | .tuple left, .tuple right => sameItems left right
  | .object left, .object right => left.length == right.length && sameFields left right
  | .decimal left, .decimal right => left.same right
  | left, right =>
    match left.whole?, right.whole? with
    | some x, some y => x == y
    | _, _ => false

def sameItems : List Value → List Value → Bool
  | [], [] => true
  | x :: xs, y :: ys => same x y && sameItems xs ys
  | _, _ => false

def sameFields : List (String × Value) → List (String × Value) → Bool
  | [], _ => true
  | (name, x) :: rest, right =>
    (match field? name right with
      | some y => same x y
      | none => false) && sameFields rest right
end

end Value
end WiredViews
