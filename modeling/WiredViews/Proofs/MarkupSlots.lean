import Mathlib.Data.List.Forall2
import WiredViews.Proofs.Substitution

namespace WiredViews

-- What a slot shows of a value, in a view that is text and in one that is markup. Of an array,
-- the items and the separator are each made safe for themselves.
structure SlotEscaped (style : ViewStyle) (value : Value) (shown escaped : List Char) : Prop where
  escapes : Escapes shown escaped
  missing : value = .null → shown = style.placeholder.toList
  array : ∀ items, value = .list items ∨ value = .tuple items → ∃ separator parts, Escapes style.separator.toList separator ∧
    List.Forall₂ (fun item part => Escapes item.display.toList part) items parts ∧
    shown = style.separator.toList.intercalate (items.map fun item => item.display.toList) ∧
    escaped = separator.intercalate parts
  plain : value ≠ .null → (∀ items, value ≠ .list items ∧ value ≠ .tuple items) → shown = value.display.toList

def woven : List (List Char) → List (List Char) → List Char → List Char
  | piece :: pieces, slot :: slots, last => piece ++ (slot ++ woven pieces slots last)
  | _, _, last => last

def slotTexts (style : ViewStyle) (mode : RenderMode) (names : List String) (values : Record) : List (List Char) :=
  names.map fun name => slotText style mode (values.read name)

-- The two ways to render one view: the pieces are the same, and what is in the slots differs by
-- escapes only.
structure Twofold (style : ViewStyle) (pieces : List (List Char)) (names : List String) (last : List Char)
    (render : RenderMode → Record → Except RenderError String) : Prop where
  slotted : pieces.length = names.length
  rendered : ∀ (mode : RenderMode) (values : Record),
    render mode values = .ok (String.ofList (woven pieces (slotTexts style mode names values) last))
  escaped : ∀ (values : Record), ∀ name ∈ names, SlotEscaped style (values.read name)
    (slotText style .text (values.read name)) (slotText style .html (values.read name))
  unmarked : ∀ values, (woven pieces (slotTexts style .html names values) last).filter isMarkup =
    (pieces.flatten ++ last).filter isMarkup
  apart : ∀ (values others : Record) (place : Nat),
    (slotTexts style .text names values)[place]? ≠ (slotTexts style .text names others)[place]? →
    (slotTexts style .html names values)[place]? ≠ (slotTexts style .html names others)[place]?

section Slots
variable {style : ViewStyle}

theorem escape_intercalate (separator : List Char) (parts : List (List Char)) :
    escapeMarkup (separator.intercalate parts) = (escapeMarkup separator).intercalate (parts.map escapeMarkup) := by
  induction parts with
  | nil => rfl
  | cons part parts ih =>
    cases parts with
    | nil => simp
    | cons next parts =>
      rw [List.map_cons] at ih
      rw [List.intercalate_cons_cons, List.map_cons, List.map_cons, List.intercalate_cons_cons, ← ih]
      simp only [escapeMarkup, List.flatMap_append]

theorem slot_html (style : ViewStyle) (value : Value) :
    slotText style .html value = escapeMarkup (slotText style .text value) :=
  rfl

theorem slot_escaped (style : ViewStyle) (value : Value) :
    SlotEscaped style value (slotText style .text value) (slotText style .html value) := by
  constructor
  case escapes => exact escape_escapes _
  case missing =>
    rintro rfl
    rfl
  case array =>
    intro items listed
    have shown : slotText style .text value =
        style.separator.toList.intercalate (items.map fun item => item.display.toList) :=
      (format_exact.mp (.listed listed (displays_exact.mpr rfl))).symm
    refine ⟨_, items.map fun item => escapeMarkup item.display.toList, escape_escapes _, ?_, shown, ?_⟩
    · rw [List.forall₂_map_right_iff, List.forall₂_same]
      exact fun item _ => escape_escapes _
    · rw [slot_html, shown, escape_intercalate, List.map_map]
      rfl
  case plain =>
    intro present unlisted
    exact (format_exact.mp (.single present unlisted (display_exact.mpr rfl))).symm

theorem slots_undone (names : List String) (values : Record) : slotTexts style .text names values =
    (slotTexts style .html names values).map unescapeMarkup := by
  unfold slotTexts
  rw [List.map_map]
  refine List.map_congr_left fun name _ => ?_
  exact (slot_escaped style (values.read name)).escapes.undone.symm

theorem woven_unmarked {pieces slots : List (List Char)} (slotted : pieces.length = slots.length)
    (bare : ∀ slot ∈ slots, ∀ c ∈ slot, isMarkup c = false) (last : List Char) :
    (woven pieces slots last).filter isMarkup = (pieces.flatten ++ last).filter isMarkup := by
  induction pieces generalizing slots with
  | nil =>
    cases slots with
    | nil => rfl
    | cons slot slots => cases slotted
  | cons piece pieces ih =>
    cases slots with
    | nil => cases slotted
    | cons slot slots =>
      rw [List.forall_mem_cons] at bare
      have none : slot.filter isMarkup = [] := by
        rw [List.filter_eq_nil_iff]
        intro c listed
        simp [bare.1 c listed]
      have rest := ih (Nat.succ.inj slotted) bare.2
      rw [woven, List.filter_append, List.filter_append, none, rest, List.nil_append, List.flatten_cons,
        List.append_assoc, ← List.filter_append]

theorem filledIn_woven (rows : List (List Char × String)) (last : List Char) (mode : RenderMode) (values : Record) :
    FilledIn style mode values last rows (woven (rows.map fun row => unifyNewlines row.1)
      (slotTexts style mode (rows.map Prod.snd) values) (unifyNewlines last)) := by
  unfold slotTexts
  induction rows with
  | nil => exact .last (unify_exact.mpr rfl)
  | cons row rows ih => exact .row (unify_exact.mpr rfl) (slot_exact.mpr rfl) ih

end Slots

theorem render_twofold {engine : Engine} (faithful : engine.Faithful) {style : ViewStyle}
    {renderer : RenderMode → ViewRenderer} (reached : ∀ mode, (renderer mode).Reached engine style)
    (name text : String) :
    ∃ rows last, Cut text.toList rows last ∧
      Twofold style (rows.map fun row => unifyNewlines row.1) (rows.map Prod.snd) (unifyNewlines last)
        fun mode values => ((renderer mode).renderWith (ViewRenderer.compile engine) name mode text values).2 := by
  obtain ⟨rows, last, cut⟩ := exists_cut text.toList
  refine ⟨rows, last, cut, ?_⟩
  constructor
  case slotted => simp
  case rendered =>
    intro mode values
    exact cut.rendered faithful (reached mode) (filledIn_woven rows last mode values) name
  case escaped => exact fun values name _ => slot_escaped style (values.read name)
  case unmarked =>
    intro values
    refine woven_unmarked (by simp [slotTexts]) ?_ _
    rw [slotTexts, List.forall_mem_map]
    exact fun name _ => (slot_escaped style (values.read name)).escapes.bare
  case apart =>
    intro values others place differ same
    refine differ ?_
    rw [slots_undone, slots_undone, List.getElem?_map, List.getElem?_map, same]

def noticeView : String :=
  "<b title='\x7b\x7b who \x7d\x7d'>\x7b\x7btags\x7d\x7d</b>"

def noticeValues : Record :=
  Table.ofList [("tags", .list [.str "<i>", .str "&lt;i&gt;"])]

def noticeStyle : ViewStyle :=
  ⟨"\"?\"", " & "⟩

theorem notice_twofold : ∃ rows last, Cut noticeView.toList rows last ∧
    Twofold noticeStyle (rows.map fun row => unifyNewlines row.1) (rows.map Prod.snd) (unifyNewlines last)
      (fun mode values => ((ViewRenderer.start noticeStyle).renderWith (ViewRenderer.compile readSource) "mail" mode
        noticeView values).2) ∧
    String.ofList (woven (rows.map fun row => unifyNewlines row.1)
      (slotTexts noticeStyle .html (rows.map Prod.snd) noticeValues) (unifyNewlines last)) =
      "<b title='&#34;?&#34;'>&lt;i&gt; &amp; &amp;lt;i&amp;gt;</b>" := by
  have reached : ∀ _ : RenderMode, (ViewRenderer.start noticeStyle).Reached readSource noticeStyle := fun _ => .start
  obtain ⟨rows, last, cut, twofold⟩ := render_twofold readSource_faithful reached "mail" noticeView
  have rendered : ((ViewRenderer.start noticeStyle).renderWith (ViewRenderer.compile readSource) "mail" .html
      noticeView noticeValues).2 = .ok "<b title='&#34;?&#34;'>&lt;i&gt; &amp; &amp;lt;i&amp;gt;</b>" := by
    decide +kernel
  exact ⟨rows, last, cut, twofold, Except.ok.inj ((twofold.rendered .html noticeValues).symm.trans rendered)⟩

end WiredViews
