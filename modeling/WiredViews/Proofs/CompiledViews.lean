import WiredViews.Proofs.Substitution

namespace WiredViews

-- One view to be rendered. A fault makes its compilation fail, whatever the text is and
-- whatever was kept.
structure ViewCall where
  name : String
  mode : RenderMode
  text : String
  values : Record
  fault : Option String

namespace ViewCall

def key (call : ViewCall) : RenderMode × String :=
  (call.mode, call.text)

def compiler (engine : Engine) (call : ViewCall) : ViewCompiler :=
  match call.fault with
  | none => ViewRenderer.compile engine
  | some message => ViewRenderer.giveUp message

def compiled (engine : Engine) (call : ViewCall) : Except String CompiledView :=
  match call.fault with
  | none => (engine (viewSource call.text.toList)).map fun pieces => ⟨pieces, placeholderNames call.text.toList⟩
  | some message => .error message

theorem compiled_unique {engine : Engine} {call other : ViewCall} {view made : CompiledView}
    (same : call.key = other.key) (first : call.compiled engine = .ok view)
    (second : other.compiled engine = .ok made) : view = made := by
  obtain ⟨_, mode, text, _, fault⟩ := call
  obtain ⟨_, _, _, _, otherFault⟩ := other
  cases same
  cases fault with
  | some message => cases first
  | none =>
    cases otherFault with
    | some message => cases second
    | none => exact Except.ok.inj (first.symm.trans second)

end ViewCall

namespace ViewRenderer

def serve (engine : Engine) (renderer : ViewRenderer) (call : ViewCall) : ViewRenderer × Except RenderError String :=
  renderer.renderWith (call.compiler engine) call.name call.mode call.text call.values

def serveAll (engine : Engine) : ViewRenderer → List ViewCall → ViewRenderer × List (Except RenderError String)
  | renderer, [] => (renderer, [])
  | renderer, call :: rest =>
    let (after, answer) := renderer.serve engine call
    let (last, answers) := after.serveAll engine rest
    (last, answer :: answers)

def showAll (engine : Engine) : ViewRenderer → List (String × View) → Record →
    Except RenderError (List (String × String))
  | _, [], _ => .ok []
  | renderer, (name, view) :: rest, values =>
    match renderer.renderWith (compile engine) name view.mode view.text values with
    | (_, .error error) => .error error
    | (after, .ok text) => (after.showAll engine rest values).map ((name, text) :: ·)

def alone (engine : Engine) (style : ViewStyle) : RenderFunction := fun name view values =>
  ((start style).renderWith (compile engine) name view.mode view.text values).2

end ViewRenderer

-- A renderer after some calls, with its answers to them: what it kept makes no difference to
-- the answers, and failures leave nothing behind.
structure Unnoticed (engine : Engine) (style : ViewStyle) (calls : List ViewCall) (renderer : ViewRenderer)
    (answers : List (Except RenderError String)) : Prop where
  answered : answers = calls.map fun call => ((ViewRenderer.start style).serve engine call).2
  refused : ∀ call message, call.compiled engine = .error message →
    renderer.serve engine call = (renderer, .error (.engineFailed call.name message))
  entries : renderer.compiled.keys = distinct ((calls.filter fun call => (call.compiled engine).isOk).map ViewCall.key)
  kept : ∀ mode text view, renderer.compiled.get? (mode, text) = some view ↔
    ∃ call ∈ calls, call.key = (mode, text) ∧ call.compiled engine = .ok view

namespace ViewRenderer
variable {engine : Engine} {style : ViewStyle} {renderer : ViewRenderer} {call : ViewCall}

theorem Honest.compiler_exact (honest : renderer.Honest engine style) (call : ViewCall) :
    call.compiler engine renderer call.mode call.text =
      match call.compiled engine with
      | .error message => (renderer, .error message)
      | .ok view => ({ renderer with compiled := renderer.compiled.insert call.key view }, .ok view) := by
  unfold ViewCall.compiler ViewCall.compiled ViewCall.key
  cases call.fault with
  | some message => rfl
  | none =>
    dsimp only
    rw [honest.compile_exact]
    cases engine (viewSource call.text.toList) <;> rfl

theorem Honest.serve_exact (honest : renderer.Honest engine style) (call : ViewCall) :
    renderer.serve engine call =
      match call.compiled engine with
      | .error message => (renderer, .error (.engineFailed call.name message))
      | .ok view => ({ renderer with compiled := renderer.compiled.insert call.key view },
          .ok (String.ofList (view.fill style call.mode call.values))) := by
  unfold serve renderWith
  rw [honest.compiler_exact call, honest.styled]
  cases call.compiled engine <;> rfl

theorem Honest.serve_answer (honest : renderer.Honest engine style) (call : ViewCall) :
    (renderer.serve engine call).2 = ((start style).serve engine call).2 := by
  rw [honest.serve_exact, honest_start.serve_exact]
  cases call.compiled engine <;> rfl

theorem Honest.serve_after (honest : renderer.Honest engine style) (call : ViewCall) :
    (renderer.serve engine call).1.Honest engine style := by
  unfold serve
  rw [renderWith_after]
  unfold ViewCall.compiler
  cases call.fault with
  | none => exact honest.after call.mode call.text
  | some message => exact honest

theorem serveAll_concat (renderer : ViewRenderer) (calls : List ViewCall) (call : ViewCall) :
    renderer.serveAll engine (calls ++ [call]) =
      (((renderer.serveAll engine calls).1.serve engine call).1,
        (renderer.serveAll engine calls).2 ++ [((renderer.serveAll engine calls).1.serve engine call).2]) := by
  induction calls generalizing renderer with
  | nil => rfl
  | cons first rest ih => simp only [List.cons_append, serveAll, ih]

theorem serveAll_honest (calls : List ViewCall) : ((start style).serveAll engine calls).1.Honest engine style := by
  induction calls using List.reverseRecOn with
  | nil => exact honest_start
  | append_singleton calls call ih =>
    rw [serveAll_concat]
    exact ih.serve_after call

end ViewRenderer

section Calls
variable {engine : Engine} {style : ViewStyle} {renderer : ViewRenderer} {calls : List ViewCall}
  {answers : List (Except RenderError String)}

theorem unnoticed_start : Unnoticed engine style [] (.start style) [] where
  answered := rfl
  refused call message failed := by rw [ViewRenderer.honest_start.serve_exact, failed]
  entries := rfl
  kept mode text view := by simp [ViewRenderer.start]

theorem Unnoticed.serve (unnoticed : Unnoticed engine style calls renderer answers)
    (honest : renderer.Honest engine style) (call : ViewCall) :
    Unnoticed engine style (calls ++ [call]) (renderer.serve engine call).1
      (answers ++ [(renderer.serve engine call).2]) where
  answered := by rw [unnoticed.answered, honest.serve_answer, List.map_append, List.map_singleton]
  refused next message failed := by rw [(honest.serve_after call).serve_exact, failed]
  entries := by
    rw [honest.serve_exact, List.filter_append, List.map_append]
    cases compiled : call.compiled engine with
    | error message => simp [compiled, Except.isOk, Except.toBool, unnoticed.entries]
    | ok view =>
      simpa [compiled, Except.isOk, Except.toBool] using Table.keys_insert_distinct unnoticed.entries
  kept mode text view := by
    rw [honest.serve_exact]
    simp only [List.mem_append, List.mem_singleton, or_and_right, exists_or, exists_eq_left]
    have earlier := unnoticed.kept mode text view
    cases compiled : call.compiled engine with
    | error message => simpa using earlier
    | ok other =>
      dsimp only
      rw [Table.get?_insert, ← earlier]
      by_cases same : call.key = (mode, text)
      · rw [if_pos same, Option.some.injEq, Except.ok.injEq]
        refine ⟨fun equal => Or.inr ⟨same, equal⟩, fun either => ?_⟩
        rcases either with held | ⟨_, equal⟩
        · obtain ⟨before, _, key, first⟩ := earlier.mp held
          exact ViewCall.compiled_unique (same.trans key.symm) compiled first
        · exact equal
      · simp [same]

theorem serveAll_unnoticed (calls : List ViewCall) :
    Unnoticed engine style calls ((ViewRenderer.start style).serveAll engine calls).1
      ((ViewRenderer.start style).serveAll engine calls).2 := by
  induction calls using List.reverseRecOn with
  | nil => exact unnoticed_start
  | append_singleton calls call ih =>
    rw [ViewRenderer.serveAll_concat]
    exact ih.serve (ViewRenderer.serveAll_honest calls) call

end Calls

section Views
variable {engine : Engine} {style : ViewStyle}

-- The induction is on the views that are left; the renderer counts for the rest by its style only.
theorem showAll_alone {renderer : ViewRenderer} (honest : renderer.Honest engine style)
    (views : List (String × View)) (values : Record) :
    renderer.showAll engine views values = renderAllBy (ViewRenderer.alone engine style) views values := by
  induction views generalizing renderer with
  | nil => rfl
  | cons first rest ih =>
    obtain ⟨name, view⟩ := first
    let call : ViewCall := ⟨name, view.mode, view.text, values, none⟩
    have answer : (renderer.serve engine call).2 = ViewRenderer.alone engine style name view values :=
      honest.serve_answer call
    have further := ih (honest.serve_after call)
    have split : renderAllBy (ViewRenderer.alone engine style) ((name, view) :: rest) values =
        match ViewRenderer.alone engine style name view values with
        | .error error => .error error
        | .ok text => (renderAllBy (ViewRenderer.alone engine style) rest values).map ((name, text) :: ·) := by
      rw [renderAllBy, List.mapM_cons]
      cases ViewRenderer.alone engine style name view values <;> rfl
    have here : renderer.showAll engine ((name, view) :: rest) values =
        match renderer.serve engine call with
        | (_, .error error) => .error error
        | (after, .ok text) => (after.showAll engine rest values).map ((name, text) :: ·) := rfl
    rw [split, here, ← answer, ← further]
    rcases renderer.serve engine call with ⟨after, _ | text⟩ <;> rfl

theorem renderAll_showAll (renderer : ViewRenderer) (views : List (String × View)) (values : Record) :
    renderAll renderer views values = renderer.showAll readSource views values := by
  induction views generalizing renderer with
  | nil => rfl
  | cons first rest ih =>
    obtain ⟨name, view⟩ := first
    rw [renderAll, ViewRenderer.showAll, ViewRenderer.render]
    rcases renderer.renderWith (ViewRenderer.compile readSource) name view.mode view.text values with
      ⟨after, _ | text⟩
    · rfl
    · dsimp only
      rw [ih after]
      cases after.showAll readSource rest values <;> rfl

theorem mapM_exact {ε α β : Type} {read : α → Except ε β} {items : List α} {results : List β} :
    items.mapM read = .ok results ↔ List.Forall₂ (fun item result => read item = .ok result) items results := by
  induction items generalizing results with
  | nil => cases results <;> simp [pure, Except.pure]
  | cons item rest ih =>
    rw [List.mapM_cons]
    cases first : read item with
    | error error => cases results <;> simp [bind, Except.bind, first]
    | ok result =>
      cases later : rest.mapM read <;> cases results <;>
        simp [bind, Except.bind, pure, Except.pure, first, later, ← ih]

theorem select_exact {template : Template} {wanted : Option (List String)} {views : List (String × View)} :
    template.select wanted = .ok views ↔
      List.Forall₂ (fun name row => row.1 = name ∧ template.views.get? name = some row.2)
        (wanted.getD template.views.keys) views := by
  rw [Template.select, mapM_exact]
  refine ⟨List.Forall₂.imp fun name row given => ?_, List.Forall₂.imp fun name row given => ?_⟩
  · cases held : template.views.get? name with
    | none => simp [held] at given
    | some view =>
      rw [held] at given
      cases given
      exact ⟨rfl, rfl⟩
  · obtain ⟨rfl, held⟩ := given
    rw [held]

theorem renderViews_alone (template : Template) (style : ViewStyle) (wanted : Option (List String)) (values : Record) :
    template.renderViews style none wanted values = (template.select wanted).bind fun views =>
      (renderAllBy (ViewRenderer.alone readSource style) views values).map Table.ofList := by
  unfold Template.renderViews
  cases template.select wanted with
  | error error => rfl
  | ok views =>
    dsimp only [Except.bind]
    rw [renderAll_showAll, showAll_alone ViewRenderer.honest_start]

end Views

theorem renderer_unnoticed (engine : Engine) (style : ViewStyle) :
    (∀ calls, Unnoticed engine style calls ((ViewRenderer.start style).serveAll engine calls).1
      ((ViewRenderer.start style).serveAll engine calls).2) ∧
    (∀ views values, (ViewRenderer.start style).showAll engine views values =
      renderAllBy (ViewRenderer.alone engine style) views values) ∧
    ∀ (template : Template) (wanted : Option (List String)),
      (∀ views, template.select wanted = .ok views ↔
        List.Forall₂ (fun name row => row.1 = name ∧ template.views.get? name = some row.2)
          (wanted.getD template.views.keys) views) ∧
      ∀ values, template.renderViews style none wanted values = (template.select wanted).bind fun views =>
        (renderAllBy (ViewRenderer.alone readSource style) views values).map Table.ofList := by
  refine ⟨serveAll_unnoticed, fun views values => ?_, fun template wanted => ?_⟩
  · exact showAll_alone ViewRenderer.honest_start views values
  · exact ⟨fun views => select_exact, fun values => renderViews_alone template style wanted values⟩

example : ((ViewRenderer.start ⟨"?", ", "⟩).serveAll readSource
    [⟨"mail", .html, "by night", ∅, some "torn"⟩, ⟨"mail", .html, "by night", ∅, none⟩,
      ⟨"note", .html, "by night", ∅, none⟩, ⟨"note", .text, "by night", ∅, none⟩]).1.compiled.keys =
    [(.html, "by night"), (.text, "by night")] := by decide +kernel

end WiredViews
