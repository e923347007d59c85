import WiredViews.Placeholder

namespace WiredViews

-- The source handed to the template engine knows two constructs only: an opening
-- brace given as a constant, and the entry of a record. Whatever else a view
-- contains has lost its braces by then and cannot be taken for a construct.
def braceToken : List Char :=
  "\x7b\x7b '\x7b' \x7d\x7d".toList

def entryStart : List Char :=
  "\x7b\x7b record['".toList

def entryEnd : List Char :=
  "'] \x7d\x7d".toList

def entryToken (name : String) : List Char :=
  entryStart ++ name.toList ++ entryEnd

def literalSource (stretch : List Char) : List Char :=
  stretch.flatMap fun c => if c = '{' then braceToken else [c]

def segmentSource : Segment String → List Char
  | .plain stretch => literalSource stretch
  | .found name => entryToken name

def viewSource (text : List Char) : List Char :=
  (viewSegments text).flatMap segmentSource

inductive SourceToken where
  | brace
  | entry (name : String)
deriving DecidableEq

def tokenPattern : Pattern SourceToken := fun source =>
  match takeMark braceToken source with
  | some left => some (.brace, left)
  | none => do
    let left ← takeMark entryStart source
    let (name, left) ← takeName left
    let left ← takeMark entryEnd left
    return (.entry (String.ofList name), left)

def unifyNewlines : List Char → List Char
  | [] => []
  | '\r' :: '\n' :: rest => '\n' :: unifyNewlines rest
  | '\r' :: rest => '\n' :: unifyNewlines rest
  | c :: rest => c :: unifyNewlines rest

def hasOpenBrace : Segment SourceToken → Bool
  | .plain stretch => stretch.contains '{'
  | .found _ => false

-- A brace outside the two constructs could open anything, so such a source is refused.
def readSource (source : List Char) : Except String (List (Segment SourceToken)) :=
  let pieces := segments tokenPattern (unifyNewlines source)
  if pieces.any hasOpenBrace then .error "unexpected construct" else .ok pieces

end WiredViews
