import Mathlib.Data.List.TakeWhile
import WiredViews.Proofs.LineRuns
import WiredViews.Proofs.RegionLines

-- Which comments and blank lines leave no trace: those with spaces and tabs only in front. Any other
-- white space makes a line count like the lines of a declaration.
namespace WiredViews

def Remark (line : Line) : Prop :=
  trim line = [] ∨ ['/', '/'] <+: trim line

def Indented (line : Line) : Prop :=
  ∀ c ∈ line.takeWhile isBlank, isIndent c = true

instance (line : Line) : Decidable (Remark line) :=
  inferInstanceAs (Decidable (_ ∨ _))

instance (line : Line) : Decidable (Indented line) :=
  decidable_of_iff ((line.takeWhile isBlank).all isIndent = true) List.all_eq_true

section Lines
variable {line : Line} {front more : List Char}

theorem isBlank_of_isIndent {c : Char} (indent : isIndent c = true) : isBlank c = true := by
  rcases Bool.or_eq_true_iff.mp indent with space | tab
  · rw [beq_iff_eq.mp space]
    decide
  · rw [beq_iff_eq.mp tab]
    decide

theorem trimEnd_front (solid : ∀ c ∈ front.getLast?, isBlank c = false) :
    trimEnd (front ++ more) = front ++ trimEnd more := by
  obtain ⟨blanks, blank, split⟩ := trimEnd_split more
  have last : ∀ c ∈ (front ++ trimEnd more).getLast?, isBlank c = false := by
    intro c ended
    rw [List.getLast?_append] at ended
    cases tail : (trimEnd more).getLast? with
    | none =>
      rw [tail] at ended
      exact solid c ended
    | some d =>
      rw [tail] at ended
      cases ended
      exact trimEnd_last more c tail
  have whole := trimEnd_append blank last
  rwa [List.append_assoc, ← split] at whole

theorem skipBlanks_eq_nil : skipBlanks line = [] ↔ isAllBlank line = true := by
  rw [skipBlanks, List.dropWhile_eq_nil_iff, isAllBlank_iff]

theorem remark_iff : Remark line ↔ skipBlanks line = [] ∨ ['/', '/'] <+: skipBlanks line := by
  unfold Remark
  rw [trim_eq_nil, skipBlanks_eq_nil]
  apply or_congr Iff.rfl
  constructor
  · intro comment
    obtain ⟨blanks, _, split⟩ := trimEnd_split (skipBlanks line)
    exact comment.trans ⟨blanks, split.symm⟩
  · intro comment
    obtain ⟨rest, spelled⟩ := comment
    have solid : ∀ c ∈ ['/', '/'].getLast?, isBlank c = false := by
      intro c ended
      cases ended
      decide
    rw [trim, ← spelled, trimEnd_front solid]
    exact List.prefix_append _ _

theorem solid_not_indent {c : Char} (solid : isBlank c = false) : isIndent c = false := by
  rw [Bool.eq_false_iff] at solid ⊢
  exact fun indent => solid (isBlank_of_isIndent indent)

theorem Indented.rest (indented : Indented line) : line.dropWhile isIndent = skipBlanks line := by
  have stretch := dropWhile_stretch indented fun c first => solid_not_indent (skipBlanks_head line c first)
  have split : line.takeWhile isBlank ++ skipBlanks line = line := List.takeWhile_append_dropWhile
  rwa [split] at stretch

theorem indented_of_ignorable (ignorable : Ignorable line) : Indented line := by
  have split : line.takeWhile isIndent ++ line.dropWhile isIndent = line := List.takeWhile_append_dropWhile
  have stop : ∀ c ∈ (line.dropWhile isIndent).head?, isBlank c = false := by
    intro c first
    rcases ignorable with nothing | ⟨rest, comment⟩
    · rw [nothing] at first
      cases first
    · rw [← comment] at first
      cases first
      decide
  have stretch := takeWhile_stretch (fun c inside => isBlank_of_isIndent (takeWhile_inside line c inside)) stop
  rw [split] at stretch
  rw [Indented, stretch]
  exact takeWhile_inside line

theorem ignorable_iff_indented : Ignorable line ↔ Remark line ∧ Indented line := by
  constructor
  · intro ignorable
    have indented := indented_of_ignorable ignorable
    refine ⟨remark_iff.mpr ?_, indented⟩
    rw [← indented.rest]
    exact ignorable
  · intro given
    obtain ⟨remark, indented⟩ := given
    unfold Ignorable
    rw [indented.rest]
    exact remark_iff.mp remark

end Lines

section Regions
variable {line : Line} {lines : List Line} {ν : Type} {rows : List (ν × Line)} {logical : List (LogicalLine ν)}

theorem regionTexts_without (ignored : isIgnorable line = true) (before after : List Line) :
    regionTexts (before ++ line :: after) = regionTexts (before ++ after) := by
  unfold regionTexts assemble
  rw [List.map_append, List.map_cons, assembleFrom_filter, List.filter_append,
    List.filter_cons_of_neg (by simpa using ignored), ← List.filter_append, ← assembleFrom_filter, List.map_append]

theorem remark_visible {piece : List Char} (remark : Remark line) (continues : Continues line piece) :
    isAllBlank piece = false := by
  rw [Remark, trims_exact.mp continues] at remark
  rcases remark with nothing | ⟨rest, comment⟩
  · simp at nothing
  · cases piece with
    | nil => simp [continuation] at comment
    | cons c piece =>
      have first : '/' = c := (List.cons.inj comment).1
      rw [← first]
      rfl

theorem regionTexts_remark (solid : isIgnorable line = false) (remark : Remark line) : regionTexts [line] ≠ [] := by
  have rows : regionTexts [line] = (assembleFrom none [((), line)]).map LogicalLine.text := rfl
  rw [rows]
  rcases continues_or_closes line with ⟨piece, continues⟩ | ⟨piece, closes⟩
  · rw [assembleFrom_continues solid continues rfl, assembleFrom, List.nil_append, remark_visible remark continues]
    simp
  · rw [assembleFrom_closes solid closes rfl]
    simp

theorem regionTexts_blank (solid : isIgnorable line = false) (blank : trim line = []) : regionTexts [line] = [[]] := by
  have closes : Closes line [] := closes_iff.mpr ⟨by simp [IsContinued, blank], blank⟩
  have rows : regionTexts [line] = (assembleFrom none [((), line)]).map LogicalLine.text := rfl
  rw [rows, assembleFrom_closes solid closes rfl]
  rfl

theorem Runs.emptied (given : Runs rows logical) (empty : [] ∈ logical.map LogicalLine.text) :
    ∃ row ∈ rows, trim row.2 = [] := by
  induction given with
  | done => cases empty
  | @closed number opens rest closing pieces last text logical starts continued closes trimmed _ ih =>
    rcases List.mem_cons.mp empty with here | later
    · refine ⟨closing, by simp, ?_⟩
      obtain ⟨_, rfl⟩ := closes_iff.mp closes
      have hidden : trim (pieces.flatten ++ trim closing.2) = [] := (trims_exact.mp trimmed).trans here.symm
      have blank := (isAllBlank_append.mp (trim_eq_nil.mp hidden)).2
      rw [← trim_trim]
      exact trim_eq_nil.mpr blank
    · obtain ⟨row, listed, blank⟩ := ih later
      exact ⟨row, by simp [listed], blank⟩
  | unclosed _ _ _ some_text => simp_all
  | blank => cases empty

theorem regionTexts_empty (plain : ∀ line ∈ lines, '\n' ∉ line) (empty : [] ∈ regionTexts lines) :
    ∃ line ∈ lines, trim line = [] ∧ ¬ Indented line := by
  obtain ⟨row, counted, blank⟩ := (runs_assembled _).emptied empty
  obtain ⟨listed, solid⟩ := List.mem_filter.mp counted
  obtain ⟨line, member, rfl⟩ := List.mem_map.mp listed
  refine ⟨line, member, blank, fun indented => ?_⟩
  have ignored := (isIgnorable_iff (plain line member)).mpr (ignorable_iff_indented.mpr ⟨Or.inl blank, indented⟩)
  simp [ignored] at solid

end Regions

theorem remarks_dropped {lines : List Line} (plain : ∀ line ∈ lines, '\n' ∉ line) :
    (∀ line ∈ lines, Remark line → (Indented line ↔
      ∀ before after : List Line, regionTexts (before ++ line :: after) = regionTexts (before ++ after))) ∧
    ([] ∈ regionTexts lines → ∃ line ∈ lines, trim line = [] ∧ ¬ Indented line) ∧
    ∀ line ∈ lines, trim line = [] → ¬ Indented line → regionTexts [line] = [[]] := by
  have exactly : ∀ line ∈ lines, Remark line → (isIgnorable line = true ↔ Indented line) := by
    intro line listed remark
    rw [isIgnorable_iff (plain line listed), ignorable_iff_indented]
    exact ⟨And.right, fun indented => ⟨remark, indented⟩⟩
  refine ⟨?_, regionTexts_empty plain, ?_⟩
  · intro line listed remark
    rw [← exactly line listed remark]
    constructor
    · exact regionTexts_without
    · intro traceless
      cases ignored : isIgnorable line with
      | true => rfl
      | false => exact absurd (traceless [] []) (regionTexts_remark ignored remark)
  · intro line listed blank other
    have solid : isIgnorable line = false := by
      rw [← exactly line listed (Or.inl blank)] at other
      simpa using other
    exact regionTexts_blank solid blank

def tabbed : Line := "\t // by night \\".toList

def spaced : Line := "\u00a0// by night".toList

theorem remarks_tabbed :
    (Indented tabbed ∧
      ∀ before after : List Line, regionTexts (before ++ tabbed :: after) = regionTexts (before ++ after)) ∧
    (¬ Indented spaced ∧
      ¬ ∀ before after : List Line, regionTexts (before ++ spaced :: after) = regionTexts (before ++ after)) ∧
    ([] ∈ regionTexts [tabbed, spaced, ['\r']] ∧ ¬ Indented ['\r'] ∧ regionTexts [['\r']] = [[]]) := by
  have plain : ∀ line ∈ [tabbed, spaced, ['\r']], '\n' ∉ line := by
    simp only [List.forall_mem_cons]
    exact ⟨by decide, by decide, by decide, List.forall_mem_nil _⟩
  obtain ⟨dropped, _, kept⟩ := remarks_dropped plain
  have indented : Indented tabbed := by decide
  have other : ¬ Indented spaced := by decide
  have return_ : ¬ Indented ['\r'] := by decide
  refine ⟨⟨indented, ?_⟩, ⟨other, ?_⟩, by decide +kernel, return_, ?_⟩
  · exact (dropped tabbed (by simp) (by decide)).mp indented
  · exact fun traceless => other ((dropped spaced (by simp) (by decide)).mpr traceless)
  · exact kept ['\r'] (by simp) (by decide) return_

-- Lines that hold nothing but a stray carriage return, or a comment after a no-break space, are
-- taken for declarations; the text they come from is refused for them.
theorem remarks_kept :
    Remark ['\r'] ∧ Remark spaced ∧ '\n' ∉ spaced ∧
      regionTexts ["$quay = 'Oslo'".toList] = ["$quay = 'Oslo'".toList] ∧
      regionTexts ["$quay = 'Oslo'".toList, ['\r'], spaced] = ["$quay = 'Oslo'", "", "// by night"].map String.toList ∧
      splitLines "$quay = 'Oslo'\r\n\r\r\n".toList = ["$quay = 'Oslo'", "\r", ""].map String.toList ∧
      Template.read "#data\r\n$quay = 'Oslo'\r\n\r\r\n#view" = .error ⟨.notAssignment "", some 3⟩ := by
  decide +kernel

end WiredViews
