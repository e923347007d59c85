import WiredViews.Lines
import WiredViews.Names
import WiredViews.Segments
import WiredViews.SyntaxFault
import WiredViews.Template

namespace WiredViews

abbrev NumberedLine := Nat × Line

def isDataHead (line : Line) : Bool :=
  startsWith dataTag.toList line

def isViewHead (line : Line) : Bool :=
  startsWith viewTag.toList line

structure ViewBlock where
  head : NumberedLine
  body : List NumberedLine
deriving DecidableEq

def splitAtViews : List NumberedLine → List NumberedLine × List ViewBlock
  | [] => ([], [])
  | line :: rest =>
    let (before, blocks) := splitAtViews rest
    if isViewHead line.2 then ([], ⟨line, before⟩ :: blocks) else (line :: before, blocks)

def joinBody (body : List NumberedLine) : List Char :=
  joinLines (body.map Prod.snd)

structure Regions where
  declarations : List NumberedLine
  views : List ViewBlock
deriving DecidableEq

-- Lines above the data header belong to no region and are not looked at.
def Regions.ofLines (lines : List NumberedLine) : Except SyntaxError Regions :=
  match lines.filter (fun line => isDataHead line.2) with
  | [] => .error ⟨.noDataRegion, none⟩
  | _ :: second :: _ => .error ⟨.secondDataRegion, some second.1⟩
  | [dataHead] =>
    match lines.filter (fun line => isViewHead line.2) with
    | [] => .error ⟨.noViewRegion, none⟩
    | viewHead :: _ =>
      if viewHead.1 < dataHead.1 then
        .error ⟨.viewBeforeData, some viewHead.1⟩
      else if isAllBlank (dataHead.2.drop dataTag.length) then
        let (declarations, views) := splitAtViews (lines.dropWhile (fun line => !isDataHead line.2)).tail
        .ok ⟨declarations, views⟩
      else
        .error ⟨.dataHeader (String.ofList dataHead.2), some dataHead.1⟩

def takeBracketed (opening closing : Char) (allowed : Char → Bool) : Pattern (List Char) := fun text => do
  let inner ← takeMark [opening] text
  let left ← takeMark [closing] (inner.dropWhile allowed)
  if (inner.takeWhile allowed).isEmpty then none else return (inner.takeWhile allowed, left)

def Pattern.optional {α : Type} (pattern : Pattern α) (text : List Char) : Option α × List Char :=
  match pattern text with
  | some (item, left) => (some item, left)
  | none => (none, text)

structure ViewHeader where
  name : String
  mode : Option String
deriving DecidableEq

def defaultViewName : String := "default"

def ViewHeader.read (line : Line) : Option ViewHeader := do
  let left ← takeMark viewTag.toList line
  let (name, left) := (takeBracketed '(' ')' isNameChar).optional left
  let (mode, left) := (takeBracketed '[' ']' Char.isLower).optional left
  if isAllBlank left then
    return ⟨(name.map String.ofList).getD defaultViewName, mode.map String.ofList⟩
  else none

def ViewHeader.renderMode (header : ViewHeader) : Except SyntaxFault RenderMode :=
  match header.mode with
  | none => .ok .html
  | some mode =>
    match RenderMode.ofName? mode with
    | some known => .ok known
    | none => .error (.unknownMode mode)

def addView (views : Table String View) (block : ViewBlock) : Except SyntaxFault (Table String View) :=
  match ViewHeader.read block.head.2 with
  | none => .error (.viewHeader (String.ofList block.head.2))
  | some header =>
    match header.renderMode with
    | .error fault => .error fault
    | .ok mode =>
      if views.contains header.name then .error (.secondView header.name)
      else .ok (views.insert header.name ⟨mode, String.ofList (joinBody block.body), block.head.1⟩)

def readViews : Table String View → List ViewBlock → Except SyntaxError (Table String View)
  | views, [] => .ok views
  | views, block :: rest =>
    match addView views block with
    | .error fault => .error ⟨fault, some block.head.1⟩
    | .ok more => readViews more rest

end WiredViews
