import Mathlib.Data.List.Basic
import WiredViews.Proofs.EngineSource
import WiredViews.Proofs.TableWrites

namespace WiredViews

inductive ViewRenderer.Reached (engine : Engine) (style : ViewStyle) : ViewRenderer → Prop where
  | start : Reached engine style (.start style)
  | rendered {renderer : ViewRenderer} (name : String) (mode : RenderMode) (text : String) (values : Record)
      (earlier : Reached engine style renderer) :
      Reached engine style (renderer.renderWith (compile engine) name mode text values).1

-- What is kept for a mode and a text is what would be compiled now.
structure ViewRenderer.Honest (engine : Engine) (style : ViewStyle) (renderer : ViewRenderer) : Prop where
  styled : renderer.style = style
  kept : ∀ mode text view, renderer.compiled.get? (mode, text) = some view →
    engine (viewSource text.toList) = .ok view.pieces ∧ view.names = placeholderNames text.toList

namespace ViewRenderer
variable {engine : Engine} {style : ViewStyle} {renderer : ViewRenderer}

theorem honest_start : (start style).Honest engine style where
  styled := rfl
  kept _ _ _ found := by cases found

theorem renderWith_after (compile : ViewCompiler) (name : String) (mode : RenderMode) (text : String)
    (values : Record) : (renderer.renderWith compile name mode text values).1 = (compile renderer mode text).1 := by
  unfold renderWith
  rcases compile renderer mode text with ⟨after, _ | view⟩ <;> rfl

theorem renderWith_filled {compile : ViewCompiler} {mode : RenderMode} {text : String} {view : CompiledView}
    (compiled : (compile renderer mode text).2 = .ok view) (name : String) (values : Record) :
    (renderer.renderWith compile name mode text values).2 =
      .ok (String.ofList (view.fill renderer.style mode values)) := by
  unfold renderWith
  rcases made : compile renderer mode text with ⟨after, _ | other⟩
  · rw [made] at compiled
    cases compiled
  · rw [made] at compiled
    cases compiled
    rfl

-- A view that was kept is the one that would be kept now, so each success can be taken for
-- the first.
theorem Honest.compile_exact (honest : renderer.Honest engine style) (mode : RenderMode) (text : String) :
    compile engine renderer mode text =
      match engine (viewSource text.toList) with
      | .error message => (renderer, .error message)
      | .ok pieces =>
        let view : CompiledView := ⟨pieces, placeholderNames text.toList⟩
        ({ renderer with compiled := renderer.compiled.insert (mode, text) view }, .ok view) := by
  unfold compile
  cases found : renderer.compiled.get? (mode, text) with
  | none => cases engine (viewSource text.toList) <;> rfl
  | some view =>
    obtain ⟨pieces, names⟩ := honest.kept mode text view found
    rw [pieces, ← names]
    dsimp only
    rw [Table.insert_held found]

theorem Honest.compiled (honest : renderer.Honest engine style) (mode : RenderMode) (text : String) :
    (compile engine renderer mode text).2 =
      (engine (viewSource text.toList)).map fun pieces => ⟨pieces, placeholderNames text.toList⟩ := by
  rw [honest.compile_exact]
  cases engine (viewSource text.toList) <;> rfl

theorem Honest.after (honest : renderer.Honest engine style) (mode : RenderMode) (text : String) :
    (compile engine renderer mode text).1.Honest engine style := by
  rw [honest.compile_exact]
  cases read : engine (viewSource text.toList) with
  | error message => exact honest
  | ok pieces =>
    refine ⟨honest.styled, fun other words view held => ?_⟩
    change (renderer.compiled.insert (mode, text) _).get? (other, words) = some view at held
    rw [Table.get?_insert] at held
    split at held
    · rename_i same
      cases same
      cases held
      exact ⟨read, rfl⟩
    · exact honest.kept other words view held

theorem Reached.honest (reached : Reached engine style renderer) : renderer.Honest engine style := by
  induction reached with
  | start => exact honest_start
  | rendered name mode text values _ ih =>
    rw [renderWith_after]
    exact ih.after mode text

end ViewRenderer

theorem Record.read_restricted {names : List String} {name : String} (listed : name ∈ names) (values : Record) :
    Record.read (Table.ofList (names.map fun name => (name, values.read name))) name = values.read name := by
  have held : (Table.ofList (names.map fun name => (name, values.read name))).get? name = some (values.read name) := by
    refine Table.get?_insertAll_of_agree (List.mem_map_of_mem listed) ?_
    rintro row member rfl
    obtain ⟨_, _, rfl⟩ := List.mem_map.mp member
    rfl
  rw [Record.read, Table.getD, held, Option.getD_some]

section Filling
variable {style : ViewStyle} {mode : RenderMode} {record values : Record} {text last shown other : List Char}
  {rows : List (List Char × String)}

theorem filledIn_congr (agree : ∀ row ∈ rows, record.read row.2 = values.read row.2)
    (filled : FilledIn style mode values last rows shown) : FilledIn style mode record last rows shown := by
  induction filled with
  | last unified => exact .last unified
  | @row stretch literal slot shown name rows unified shows _ ih =>
    obtain ⟨here, others⟩ := List.forall_mem_cons.mp agree
    have still : Slot style (record.read name) mode slot := here ▸ shows
    exact .row unified still (ih others)

theorem filledIn_unique (first : FilledIn style mode record last rows shown)
    (second : FilledIn style mode record last rows other) : other = shown := by
  induction first generalizing other with
  | last unified =>
    cases second with
    | last again => rw [unify_exact.mp unified, unify_exact.mp again]
  | row unified shows _ ih =>
    cases second with
    | row again reshown filled =>
      rw [ih filled, unify_exact.mp unified, unify_exact.mp again, slot_exact.mp shows, slot_exact.mp reshown]

theorem pieceText_told (style : ViewStyle) (mode : RenderMode) (record : Record) :
    pieceText style mode record = told fun name => slotText style mode (record.read name) := by
  funext piece
  rcases piece with stretch | ⟨_ | name⟩ <;> rfl

theorem Cut.fill {engine : Engine} (faithful : engine.Faithful) (cut : Cut text rows last) :
    ∃ pieces, engine (viewSource text) = .ok pieces ∧ ∀ style mode values shown,
      FilledIn style mode values last rows shown →
      CompiledView.fill ⟨pieces, placeholderNames text⟩ style mode values = shown := by
  obtain ⟨output, filled⟩ := exists_filledIn ⟨"", ""⟩ .text ∅ last rows
  obtain ⟨pieces, read, written⟩ := faithful (viewSource text) ⟨_, output, cut.emits filled⟩
  refine ⟨pieces, read, fun style mode values shown filled => ?_⟩
  simp only [CompiledView.fill, pieceText_told]
  refine written _ shown (cut.emits (filledIn_congr (fun row member => ?_) filled))
  exact Record.read_restricted (cut.mem_names.mpr ⟨row, member, rfl⟩) values

theorem Cut.rendered {engine : Engine} (faithful : engine.Faithful) {renderer : ViewRenderer}
    (reached : renderer.Reached engine style) {text : String} (cut : Cut text.toList rows last)
    (filled : FilledIn style mode values last rows shown) (name : String) :
    (renderer.renderWith (ViewRenderer.compile engine) name mode text values).2 = .ok (String.ofList shown) := by
  obtain ⟨pieces, read, fills⟩ := cut.fill faithful
  have compiled := reached.honest.compiled mode text
  rw [read] at compiled
  rw [ViewRenderer.renderWith_filled compiled name values, reached.honest.styled, fills _ _ _ _ filled]

end Filling

-- Values come out whole: the text is cut before any value is known, and only once.
theorem render_substitutes {engine : Engine} (faithful : engine.Faithful) {style : ViewStyle}
    {renderer : ViewRenderer} (reached : renderer.Reached engine style) (name : String) (mode : RenderMode)
    (text : String) (values : Record) :
    ∃ rows last shown, (∀ others ending, Cut text.toList others ending ↔ others = rows ∧ ending = last) ∧
      (∀ other, FilledIn style mode values last rows other ↔ other = shown) ∧
      (renderer.renderWith (ViewRenderer.compile engine) name mode text values).2 = .ok (String.ofList shown) := by
  obtain ⟨rows, last, cut⟩ := exists_cut text.toList
  obtain ⟨shown, filled⟩ := exists_filledIn style mode values last rows
  refine ⟨rows, last, shown, fun _ _ => ⟨cut.unique, ?_⟩, fun _ => ⟨filledIn_unique filled, ?_⟩,
    cut.rendered faithful reached filled name⟩
  · rintro ⟨rfl, rfl⟩
    exact cut
  · rintro rfl
    exact filled

def bracedView : String :=
  "\x7b% if s %\x7d\x7b\x7b\x7b s\x7d\x7d\x7d\r\n\x7b\x7b s"

def bracedValues : Record :=
  Table.ofList [("s", .str "<\x7b\x7bx\x7d\x7d>")]

def bracedRenderer : ViewRenderer :=
  ((ViewRenderer.start ⟨"?", ", "⟩).renderWith (ViewRenderer.compile readSource) "mail" .html bracedView ∅).1

theorem braced_value_kept :
    ∃ rows last, Cut bracedView.toList rows last ∧ FilledIn ⟨"?", ", "⟩ .html bracedValues last rows
      "\x7b% if s %\x7d\x7b&lt;\x7b\x7bx\x7d\x7d&gt;\x7d\n\x7b\x7b s".toList := by
  have reached : bracedRenderer.Reached readSource ⟨"?", ", "⟩ := .rendered _ _ _ _ .start
  obtain ⟨rows, last, shown, cut, filled, whole⟩ :=
    render_substitutes readSource_faithful reached "mail" .html bracedView bracedValues
  have rendered : (bracedRenderer.renderWith (ViewRenderer.compile readSource) "mail" .html bracedView
      bracedValues).2 = .ok "\x7b% if s %\x7d\x7b&lt;\x7b\x7bx\x7d\x7d&gt;\x7d\n\x7b\x7b s" := by decide +kernel
  refine ⟨rows, last, (cut rows last).mpr ⟨rfl, rfl⟩, (filled _).mpr ?_⟩
  rw [Except.ok.inj (rendered.symm.trans whole), String.toList_ofList]

end WiredViews
