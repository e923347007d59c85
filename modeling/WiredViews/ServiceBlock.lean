import WiredViews.Names
import WiredViews.Segments
import WiredViews.Template

namespace WiredViews

-- Where a reader stands inside a service block: between entries, or inside one
-- entry `argument = $variable ;` with the part of it that comes next.
inductive BlockState where
  | between
  | argument
  | beforeEquals
  | beforeSource
  | sigil
  | source
  | beforeSemicolon
deriving DecidableEq

def BlockState.next : BlockState → Char → Option BlockState
  | .between, c =>
    if isBlank c then some .between else if c.isLower then some .argument else none
  | .argument, c =>
    if isNameChar c then some .argument
    else if isBlank c then some .beforeEquals
    else if c = '=' then some .beforeSource
    else none
  | .beforeEquals, c =>
    if isBlank c then some .beforeEquals else if c = '=' then some .beforeSource else none
  | .beforeSource, c =>
    if isBlank c then some .beforeSource else if c = '$' then some .sigil else none
  | .sigil, c => if c.isLower then some .source else none
  | .source, c =>
    if isNameChar c then some .source
    else if isBlank c then some .beforeSemicolon
    else if c = ';' then some .between
    else none
  | .beforeSemicolon, c =>
    if isBlank c then some .beforeSemicolon else if c = ';' then some .between else none

def isServiceBlock (inside : List Char) : Bool :=
  inside.foldlM BlockState.next BlockState.between = some .between

def entryPattern : Pattern Dependency := fun text => do
  let (argument, left) ← takeName text
  let left ← takeMark ['='] (skipBlanks left)
  let left ← takeMark ['$'] (skipBlanks left)
  let (source, left) ← takeName left
  let left ← takeMark [';'] (skipBlanks left)
  return (⟨String.ofList argument, String.ofList source⟩, left)

def blockEntries (inside : List Char) : List Dependency :=
  finds entryPattern inside

end WiredViews
