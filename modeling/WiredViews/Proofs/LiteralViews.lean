import WiredViews.Proofs.MarkupSlots
import WiredViews.Proofs.ViewSpans
import WiredViews.Proofs.WellFormedTemplates

-- Views without placeholders against the lines that they were read from: all that can be shown
-- otherwise than it was written is carriage returns.
namespace WiredViews

section Endings

theorem unify_bare (text : List Char) : '\r' ∉ unifyNewlines text := by
  fun_induction unifyNewlines text with
  | case1 => exact List.not_mem_nil
  | case2 rest ih => simpa using ih
  | case3 rest single ih => simpa using ih
  | case4 c rest unpaired other ih =>
    rw [List.mem_cons, not_or]
    exact ⟨fun same => other same.symm, ih⟩

theorem unify_same {text : List Char} : unifyNewlines text = text ↔ '\r' ∉ text := by
  constructor
  · intro same
    rw [← same]
    exact unify_bare text
  · intro bare
    have whole := @unify_front text [] bare
    rwa [unifyNewlines, List.append_nil] at whole

theorem unify_others (text : List Char) :
    (unifyNewlines text).filter (· ≠ '\n') = text.filter fun c => c ≠ '\r' ∧ c ≠ '\n' := by
  fun_induction unifyNewlines text with
  | case1 => rfl
  | case2 rest ih => simpa using ih
  | case3 rest single ih => simpa using ih
  | case4 c rest unpaired other ih =>
    have kept : c ≠ '\r' := other
    by_cases feed : c = '\n'
    · simpa [feed] using ih
    · simpa [kept, feed] using ih

theorem mem_joinLines {c : Char} (other : c ≠ '\n') {lines : List Line} :
    c ∈ joinLines lines ↔ ∃ line ∈ lines, c ∈ line := by
  unfold joinLines
  induction lines with
  | nil => simp
  | cons line rest ih =>
    cases rest with
    | nil => simp
    | cons next rest =>
      rw [List.intercalate_cons_cons]
      simp [other, ih]

end Endings

theorem silent_of_names {text : List Char} (unnamed : placeholderNames text = []) : Silent text [] := by
  obtain ⟨rows, last, cut⟩ := exists_cut text
  cases rows with
  | nil =>
    cases cut with
    | last silent => exact silent
  | cons row rows =>
    have asked := cut.mem_names.mpr ⟨row, List.mem_cons_self, rfl⟩
    rw [unnamed] at asked
    cases asked

structure LiteralView (lines : List Line) (row : String × View) (shown : String) : Prop where
  endings : shown.toList = unifyNewlines row.2.text.toList
  others : shown.toList.filter (· ≠ '\n') = row.2.text.toList.filter fun c => c ≠ '\r' ∧ c ≠ '\n'
  placed : ∃ span ∈ viewSpans lines, SpannedView lines span row ∧
    (shown = row.2.text ↔ ∀ line ∈ between span.1 span.2 lines, '\r' ∉ line)

theorem read_literal {engine : Engine} (faithful : engine.Faithful) {style : ViewStyle} {renderer : ViewRenderer}
    (reached : renderer.Reached engine style) {text : String} {template : Template}
    (read : Template.read text = .ok template) {name : String} {view : View}
    (listed : template.views.get? name = some view) (silent : Silent view.text.toList [])
    (mode : RenderMode) (values : Record) :
    ∃ shown, (renderer.renderWith (ViewRenderer.compile engine) name mode view.text values).2 = .ok shown ∧
      LiteralView (splitLines text.toList) (name, view) shown := by
  have rendered := (Cut.last silent).rendered faithful reached
    (@FilledIn.last style mode values _ _ (unify_exact.mpr rfl)) name
  refine ⟨_, rendered, String.toList_ofList, ?_, ?_⟩
  · rw [String.toList_ofList]
    exact unify_others view.text.toList
  · obtain ⟨_, _, _, parted⟩ := read_parted read
    obtain ⟨span, among, spanned⟩ := forall₂_right parted.spanned (name, view) (Table.get?_eq_some.mp listed)
    refine ⟨span, among, spanned, ?_⟩
    have same : String.ofList (unifyNewlines view.text.toList) = view.text ↔
        unifyNewlines view.text.toList = view.text.toList := by
      rw [← String.toList_inj, String.toList_ofList]
    rw [same, unify_same, spanned.text, mem_joinLines (by decide)]
    push Not
    rfl

def nightBoard : String :=
  "#data\r\n#view(board)[text]\r\nFrom \x7bOslo\x7d \x7b%\nby\rnight \x7b\x7b Stop \x7d\x7d\r\n"

def nightBoardText : String :=
  "From \x7bOslo\x7d \x7b%\nby\rnight \x7b\x7b Stop \x7d\x7d\n"

def nightBoardStyle : ViewStyle :=
  ⟨"?", ", "⟩

theorem nightBoard_read : ∃ template view, Template.read nightBoard = .ok template ∧
    template.views.get? "board" = some view ∧ view.text = nightBoardText := by
  have known : (Template.read nightBoard).toOption.map (fun template =>
      (template.views.get? "board").map View.text) = some (some nightBoardText) := by decide +kernel
  obtain ⟨template, read, views⟩ := read_known known
  obtain ⟨view, listed, text⟩ := Option.map_eq_some_iff.mp views
  exact ⟨template, view, read, listed, text⟩

theorem nightBoard_silent : Silent nightBoardText.toList [] :=
  silent_of_names (by decide +kernel)

theorem nightBoard_literal : ∃ template view, Template.read nightBoard = .ok template ∧
    template.views.get? "board" = some view ∧ Silent view.text.toList [] ∧ ∃ shown,
      ((ViewRenderer.start nightBoardStyle).renderWith (ViewRenderer.compile readSource) "board" .html view.text
        ∅).2 = .ok shown ∧
      LiteralView (splitLines nightBoard.toList) ("board", view) shown := by
  obtain ⟨template, view, read, listed, text⟩ := nightBoard_read
  have silent : Silent view.text.toList [] := text ▸ nightBoard_silent
  exact ⟨template, view, read, listed, silent, read_literal readSource_faithful .start read listed silent .html ∅⟩

-- A carriage return within a line is shown as a line feed.
theorem nightBoard_unfaithful : ¬ ∀ (text : String) (template : Template) (name : String) (view : View),
    Template.read text = .ok template → template.views.get? name = some view → Silent view.text.toList [] →
    ∀ mode, ((ViewRenderer.start nightBoardStyle).renderWith (ViewRenderer.compile readSource) name mode view.text
      ∅).2 = .ok view.text := by
  intro literal
  obtain ⟨template, view, read, listed, text⟩ := nightBoard_read
  have same := literal _ template _ view read listed (text ▸ nightBoard_silent) .text
  rw [text] at same
  revert same
  decide +kernel

end WiredViews
