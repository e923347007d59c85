import WiredViews.Markup
import WiredViews.Notice
import WiredViews.Record
import WiredViews.Template
import WiredViews.ValueText
import WiredViews.ViewSource

namespace WiredViews

structure ViewStyle where
  placeholder : String
  separator : String
deriving DecidableEq

def ViewStyle.format (style : ViewStyle) : Value → String
  | .null => style.placeholder
  | .list items | .tuple items => style.separator.intercalate (items.map Value.display)
  | value => value.display

def slotText (style : ViewStyle) (mode : RenderMode) (value : Value) : List Char :=
  match mode with
  | .html => escapeMarkup (style.format value).toList
  | .text => (style.format value).toList

structure CompiledView where
  pieces : List (Segment SourceToken)
  names : List String
deriving DecidableEq

def pieceText (style : ViewStyle) (mode : RenderMode) (record : Record) : Segment SourceToken → List Char
  | .plain stretch => stretch
  | .found .brace => ['{']
  | .found (.entry name) => slotText style mode (record.read name)

def CompiledView.fill (view : CompiledView) (style : ViewStyle) (mode : RenderMode) (values : Record) :
    List Char :=
  let record : Record := Table.ofList (view.names.map fun name => (name, values.read name))
  view.pieces.flatMap (pieceText style mode record)

abbrev Engine := List Char → Except String (List (Segment SourceToken))

inductive RenderError where
  | engineFailed (view message : String)
  | refused (message : String)
  | unknownView (view : String)
deriving DecidableEq

def RenderError.message : RenderError → String
  | .engineFailed view message => "Rendering view \"" ++ view ++ "\" failed: " ++ message
  | .refused message => message
  | .unknownView view => "view \"" ++ view ++ "\" is not defined"

-- Views are compiled once. The name of a view takes no part in that, so views of
-- one mode and one text share what was compiled.
structure ViewRenderer where
  style : ViewStyle
  compiled : Table (RenderMode × String) CompiledView

abbrev ViewCompiler := ViewRenderer → RenderMode → String → ViewRenderer × Except String CompiledView

namespace ViewRenderer

def start (style : ViewStyle) : ViewRenderer :=
  ⟨style, ∅⟩

def compile (engine : Engine) : ViewCompiler := fun renderer mode text =>
  match renderer.compiled.get? (mode, text) with
  | some view => (renderer, .ok view)
  | none =>
    match engine (viewSource text.toList) with
    | .error message => (renderer, .error message)
    | .ok pieces =>
      let view : CompiledView := ⟨pieces, placeholderNames text.toList⟩
      ({ renderer with compiled := renderer.compiled.insert (mode, text) view }, .ok view)

-- Gives up on every view, also on one that was compiled before; nothing is kept,
-- and what was kept stays.
def giveUp (message : String) : ViewCompiler := fun renderer _ _ =>
  (renderer, .error message)

def renderWith (compile : ViewCompiler) (renderer : ViewRenderer) (name : String) (mode : RenderMode)
    (text : String) (values : Record) : ViewRenderer × Except RenderError String :=
  match compile renderer mode text with
  | (after, .error message) => (after, .error (.engineFailed name message))
  | (after, .ok view) => (after, .ok (String.ofList (view.fill renderer.style mode values)))

def render (renderer : ViewRenderer) (name : String) (view : View) (values : Record) :
    ViewRenderer × Except RenderError String :=
  renderer.renderWith (compile readSource) name view.mode view.text values

end ViewRenderer

def renderNotice (name : String) (mode : RenderMode) : Except RenderError String → Notice
  | .ok text => .viewRendered name mode.name text.length
  | .error error => .viewFailed name error.message

def Template.select (template : Template) (wanted : Option (List String)) :
    Except RenderError (List (String × View)) :=
  (wanted.getD template.views.keys).mapM fun name =>
    match template.views.get? name with
    | some view => .ok (name, view)
    | none => .error (.unknownView name)

def renderAll : ViewRenderer → List (String × View) → Record →
    Except RenderError (List (String × String))
  | _, [], _ => .ok []
  | renderer, (name, view) :: rest, values =>
    match renderer.render name view values with
    | (_, .error error) => .error error
    | (after, .ok text) =>
      match renderAll after rest values with
      | .error error => .error error
      | .ok texts => .ok ((name, text) :: texts)

abbrev RenderFunction := String → View → Record → Except RenderError String

def renderAllBy (render : RenderFunction) (views : List (String × View)) (values : Record) :
    Except RenderError (List (String × String)) :=
  views.mapM fun view =>
    match render view.1 view.2 values with
    | .ok text => .ok (view.1, text)
    | .error error => .error error

-- One text per name, in the order of first mention, also for names given twice.
def Template.renderViews (template : Template) (style : ViewStyle) (replacement : Option RenderFunction)
    (wanted : Option (List String)) (values : Record) : Except RenderError (Table String String) :=
  match template.select wanted with
  | .error error => .error error
  | .ok views =>
    match replacement with
    | some render => (renderAllBy render views values).map Table.ofList
    | none => (renderAll (.start style) views values).map Table.ofList

def renderAllNotices : ViewRenderer → List (String × View) → Record → List Notice
  | _, [], _ => []
  | renderer, (name, view) :: rest, values =>
    match renderer.render name view values with
    | (_, .error error) => [renderNotice name view.mode (.error error)]
    | (after, .ok text) => renderNotice name view.mode (.ok text) :: renderAllNotices after rest values

def Template.renderNotices (template : Template) (style : ViewStyle) (replacement : Option RenderFunction)
    (wanted : Option (List String)) (values : Record) : List Notice :=
  match template.select wanted, replacement with
  | .ok views, none => renderAllNotices (.start style) views values
  | _, _ => []

end WiredViews
