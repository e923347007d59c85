import WiredViews.Distinct
import WiredViews.Names
import WiredViews.Segments

namespace WiredViews

def placeholderPattern : Pattern String := fun text => do
  let left ← takeMark ['{', '{'] text
  let (name, left) ← takeName (skipBlanks left)
  let left ← takeMark ['}', '}'] (skipBlanks left)
  return (String.ofList name, left)

def viewSegments (text : List Char) : List (Segment String) :=
  segments placeholderPattern text

def placeholderNames (text : List Char) : List String :=
  distinct (finds placeholderPattern text)

end WiredViews
