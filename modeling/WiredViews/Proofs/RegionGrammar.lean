import Mathlib.Data.List.Forall2
import Mathlib.Data.List.Nodup
import WiredViews.Proofs.DeclarationGrammar
import WiredViews.Proofs.TableWrites
import WiredViews.Regions

namespace WiredViews

inductive ViewTitle : List Char → String → Prop where
  | missing : ViewTitle [] defaultViewName
  | named {name : String} (allowed : isViewName name.toList = true) :
      ViewTitle ('(' :: (name.toList ++ [')'])) name

inductive ViewMode : List Char → RenderMode → Prop where
  | missing : ViewMode [] .html
  | named (mode : RenderMode) : ViewMode ('[' :: (mode.name.toList ++ [']'])) mode

structure IsViewHeader (line : Line) (name : String) (mode : RenderMode) : Prop where
  spelled : ∃ title bracket blanks, ViewTitle title name ∧ ViewMode bracket mode ∧
    isAllBlank blanks = true ∧ line = viewTag.toList ++ (title ++ (bracket ++ blanks))

def NamesView (row : NumberedLine) (name : String) : Prop :=
  ∃ mode, IsViewHeader row.2 name mode

-- One data header; the declarations go from there to the first view header.
structure Layout (rows before : List NumberedLine) (header : NumberedLine)
    (declarations views : List NumberedLine) : Prop where
  rows : rows = before ++ header :: (declarations ++ views)
  header : ∃ blanks, isAllBlank blanks = true ∧ header.2 = dataTag.toList ++ blanks
  only : ∀ row ∈ before ++ (declarations ++ views), ¬ dataTag.toList <+: row.2
  untitled : ∀ row ∈ before ++ declarations, ¬ viewTag.toList <+: row.2
  titled : ∃ first rest, views = first :: rest ∧ viewTag.toList <+: first.2

section Brackets
variable {opening closing : Char} {allowed : Char → Bool}

theorem takeBracketed_eq_some {text inner left : List Char} (apart : allowed closing = false) :
    takeBracketed opening closing allowed text = some (inner, left) ↔
      inner ≠ [] ∧ (∀ c ∈ inner, allowed c = true) ∧ text = opening :: (inner ++ closing :: left) := by
  constructor
  · intro found
    simp only [takeBracketed, Option.bind_eq_bind, Option.pure_def, Option.bind_eq_some_iff] at found
    obtain ⟨content, opened, rest, closed, last⟩ := found
    split at last
    · cases last
    · rename_i some_inner
      cases last
      have split := takeMark_eq_some.mp closed
      refine ⟨by simpa using some_inner, takeWhile_inside content, ?_⟩
      rw [takeMark_eq_some.mp opened, List.singleton_append, ← List.singleton_append (x := closing), ← split,
        List.takeWhile_append_dropWhile]
  · intro given
    obtain ⟨some_inner, all, rfl⟩ := given
    have stop : ∀ c ∈ (closing :: left).head?, allowed c = false := by
      intro c first
      cases first
      exact apart
    have opened : takeMark [opening] (opening :: (inner ++ closing :: left)) =
        some (inner ++ closing :: left) := takeMark_append [opening] _
    have closed : takeMark [closing] (closing :: left) = some left := takeMark_append [closing] _
    simp only [takeBracketed, Option.bind_eq_bind, Option.bind_some, opened, dropWhile_stretch all stop, closed,
      takeWhile_stretch all stop, List.isEmpty_iff, some_inner, if_false, Option.pure_def]

theorem takeBracketed_eq_none {text : List Char} (other : text.head? ≠ some opening) :
    takeBracketed opening closing allowed text = none := by
  unfold takeBracketed
  cases text with
  | nil => rfl
  | cons c rest =>
    have differ : opening ≠ c := fun same => other (by rw [same]; rfl)
    simp [takeMark, differ]

end Brackets

theorem ofName?_eq_some {name : String} {mode : RenderMode} :
    RenderMode.ofName? name = some mode ↔ name = mode.name := by
  constructor
  · intro found
    unfold RenderMode.ofName? at found
    split at found
    · rename_i html
      cases found
      exact html
    · split at found
      · rename_i text
        cases found
        exact text
      · cases found
  · rintro rfl
    exact RenderMode.ofName?_name mode

theorem isViewName_iff {text : List Char} :
    isViewName text = true ↔ text ≠ [] ∧ ∀ c ∈ text, isNameChar c = true := by
  simp [isViewName]

theorem mode_letters (mode : RenderMode) :
    mode.name.toList ≠ [] ∧ ∀ c ∈ mode.name.toList, c.isLower = true := by
  rw [← List.all_eq_true]
  cases mode <;> decide

theorem blank_not_open {blanks : List Char} (blank : isAllBlank blanks = true) {opening : Char}
    (solid : isBlank opening = false) : blanks.head? ≠ some opening := by
  intro first
  have space := isAllBlank_iff.mp blank opening (List.mem_of_mem_head? first)
  rw [solid] at space
  cases space

theorem title_taken {text left : List Char} {found : Option (List Char)}
    (taken : (takeBracketed '(' ')' isNameChar).optional text = (found, left)) :
    ∃ title, text = title ++ left ∧ ViewTitle title ((found.map String.ofList).getD defaultViewName) := by
  unfold Pattern.optional at taken
  cases bracketed : takeBracketed '(' ')' isNameChar text with
  | none =>
    rw [bracketed] at taken
    cases taken
    exact ⟨[], rfl, .missing⟩
  | some pair =>
    rw [bracketed] at taken
    cases taken
    obtain ⟨some_inner, all, split⟩ := (takeBracketed_eq_some (by decide)).mp bracketed
    have allowed : isViewName (String.ofList pair.1).toList = true := by
      rw [String.toList_ofList]
      exact isViewName_iff.mpr ⟨some_inner, all⟩
    have titled := ViewTitle.named allowed
    rw [String.toList_ofList] at titled
    exact ⟨_, by rw [split]; simp, titled⟩

theorem title_read {title rest : List Char} {name : String} (titled : ViewTitle title name)
    (other : rest.head? ≠ some '(') :
    ∃ found, (takeBracketed '(' ')' isNameChar).optional (title ++ rest) = (found, rest) ∧
      (found.map String.ofList).getD defaultViewName = name := by
  unfold Pattern.optional
  cases titled with
  | missing =>
    rw [List.nil_append, takeBracketed_eq_none other]
    exact ⟨none, rfl, rfl⟩
  | named allowed =>
    obtain ⟨some_inner, all⟩ := isViewName_iff.mp allowed
    have split : '(' :: (name.toList ++ [')']) ++ rest = '(' :: (name.toList ++ ')' :: rest) := by simp
    rw [(takeBracketed_eq_some (by decide)).mpr ⟨some_inner, all, split⟩]
    exact ⟨some name.toList, rfl, String.ofList_toList⟩

theorem mode_taken {text left : List Char} {found : Option (List Char)} {name : String} {mode : RenderMode}
    (taken : (takeBracketed '[' ']' Char.isLower).optional text = (found, left))
    (known : ViewHeader.renderMode ⟨name, found.map String.ofList⟩ = .ok mode) :
    ∃ bracket, text = bracket ++ left ∧ ViewMode bracket mode := by
  unfold Pattern.optional at taken
  cases bracketed : takeBracketed '[' ']' Char.isLower text with
  | none =>
    rw [bracketed] at taken
    cases taken
    cases known
    exact ⟨[], rfl, .missing⟩
  | some pair =>
    rw [bracketed] at taken
    cases taken
    obtain ⟨_, _, split⟩ := (takeBracketed_eq_some (by decide)).mp bracketed
    have spelled : pair.1 = mode.name.toList := by
      unfold ViewHeader.renderMode at known
      simp only [Option.map_some] at known
      split at known
      · rename_i found
        cases known
        rw [← ofName?_eq_some.mp found, String.toList_ofList]
      · cases known
    rw [spelled] at split
    exact ⟨_, by rw [split]; simp, .named mode⟩

theorem mode_read {bracket rest : List Char} {mode : RenderMode} (moded : ViewMode bracket mode)
    (other : rest.head? ≠ some '[') (name : String) :
    ∃ found, (takeBracketed '[' ']' Char.isLower).optional (bracket ++ rest) = (found, rest) ∧
      ViewHeader.renderMode ⟨name, found.map String.ofList⟩ = .ok mode := by
  unfold Pattern.optional
  cases moded with
  | missing =>
    rw [List.nil_append, takeBracketed_eq_none other]
    exact ⟨none, rfl, rfl⟩
  | named =>
    obtain ⟨some_inner, all⟩ := mode_letters mode
    have split : '[' :: (mode.name.toList ++ [']']) ++ rest = '[' :: (mode.name.toList ++ ']' :: rest) := by simp
    rw [(takeBracketed_eq_some (by decide)).mpr ⟨some_inner, all, split⟩]
    refine ⟨some mode.name.toList, rfl, ?_⟩
    simp only [ViewHeader.renderMode, Option.map_some, String.ofList_toList, RenderMode.ofName?_name]

theorem viewHeader_exact {line : Line} {name : String} {mode : RenderMode} :
    (∃ header, ViewHeader.read line = some header ∧ header.name = name ∧ header.renderMode = .ok mode) ↔
      IsViewHeader line name mode := by
  constructor
  · intro given
    obtain ⟨header, read, rfl, known⟩ := given
    simp only [ViewHeader.read, Option.bind_eq_bind, Option.pure_def, Option.bind_eq_some_iff] at read
    obtain ⟨left, tagged, finished⟩ := read
    cases titleTaken : (takeBracketed '(' ')' isNameChar).optional left with
    | mk name left =>
      cases modeTaken : (takeBracketed '[' ']' Char.isLower).optional left with
      | mk bracket blanks =>
        simp only [titleTaken, modeTaken] at finished
        split at finished
        · rename_i blank
          cases finished
          obtain ⟨title, split, titled⟩ := title_taken titleTaken
          obtain ⟨inner, splitMode, moded⟩ := mode_taken modeTaken known
          refine ⟨title, inner, blanks, titled, moded, blank, ?_⟩
          rw [takeMark_eq_some.mp tagged, split, splitMode]
        · cases finished
  · intro given
    obtain ⟨title, bracket, blanks, titled, moded, blank, rfl⟩ := given
    have opens : (bracket ++ blanks).head? ≠ some '(' := by
      cases moded with
      | missing => exact blank_not_open blank (by decide)
      | named => simp
    obtain ⟨found, titleRead, rfl⟩ := title_read titled opens
    obtain ⟨inner, modeRead, known⟩ := mode_read moded (blank_not_open blank (by decide))
      ((found.map String.ofList).getD defaultViewName)
    refine ⟨⟨(found.map String.ofList).getD defaultViewName, inner.map String.ofList⟩, ?_, rfl, known⟩
    simp only [ViewHeader.read, Option.bind_eq_bind, Option.bind_some, takeMark_append, titleRead, modeRead, blank,
      if_true, Option.pure_def]

theorem addView_exact {views : Table String View} {block : ViewBlock} {more : Table String View} :
    addView views block = .ok more ↔ ∃ name mode, IsViewHeader block.head.2 name mode ∧ name ∉ views.keys ∧
      more = views.insert name ⟨mode, String.ofList (joinBody block.body), block.head.1⟩ := by
  simp only [← viewHeader_exact]
  unfold addView
  cases read : ViewHeader.read block.head.2 with
  | none => simp
  | some header =>
    cases known : header.renderMode with
    | error fault => simp [known]
    | ok mode =>
      cases held : views.contains header.name with
      | true =>
        have present : header.name ∈ views.keys := by
          rw [Table.mem_keys, ← Table.contains_iff]
          exact held
        simp [known, held, present]
      | false =>
        have fresh := Table.contains_eq_false.mp held
        simp only [known, held, Bool.false_eq_true, if_false, Except.ok.injEq, Option.some.injEq]
        constructor
        · rintro rfl
          exact ⟨header.name, mode, ⟨header, rfl, rfl, known⟩, fresh, rfl⟩
        · intro given
          obtain ⟨_, other, ⟨_, rfl, rfl, same⟩, _, rfl⟩ := given
          rw [known] at same
          cases same
          rfl

theorem readViews_exact {views : Table String View} {blocks : List ViewBlock} :
    (∃ table, readViews views blocks = .ok table) ↔ ∃ names : List String,
      List.Forall₂ NamesView (blocks.map ViewBlock.head) names ∧ names.Nodup ∧ ∀ name ∈ names, name ∉ views.keys := by
  induction blocks generalizing views with
  | nil => simp [readViews]
  | cons block rest ih =>
    constructor
    · intro given
      obtain ⟨table, read⟩ := given
      unfold readViews at read
      split at read
      · cases read
      · rename_i more added
        obtain ⟨name, mode, header, fresh, rfl⟩ := addView_exact.mp added
        obtain ⟨names, named, distinct, apart⟩ := ih.mp ⟨table, read⟩
        have new : ∀ other ∈ names, other ≠ name ∧ other ∉ views.keys := by
          intro other member
          have absent := apart other member
          rw [Table.mem_keys_insert, not_or] at absent
          exact absent
        refine ⟨name :: names, .cons ⟨mode, header⟩ named, ?_, ?_⟩
        · exact List.nodup_cons.mpr ⟨fun member => (new name member).1 rfl, distinct⟩
        · exact List.forall_mem_cons.mpr ⟨fresh, fun other member => (new other member).2⟩
    · intro given
      obtain ⟨names, named, distinct, apart⟩ := given
      cases named with
      | @cons _ name _ names header named =>
        obtain ⟨mode, header⟩ := header
        rw [List.nodup_cons] at distinct
        rw [List.forall_mem_cons] at apart
        have added := addView_exact.mpr ⟨name, mode, header, apart.1, rfl⟩
        simp only [readViews, added]
        refine ih.mpr ⟨names, named, distinct.2, fun other member => ?_⟩
        rw [Table.mem_keys_insert, not_or]
        refine ⟨?_, apart.2 other member⟩
        rintro rfl
        exact distinct.1 member

theorem isDataHead_iff {line : Line} : isDataHead line = true ↔ dataTag.toList <+: line :=
  startsWith_iff

theorem isViewHead_iff {line : Line} : isViewHead line = true ↔ viewTag.toList <+: line :=
  startsWith_iff

theorem not_view_of_data {line : Line} (data : dataTag.toList <+: line) : ¬ viewTag.toList <+: line := by
  obtain ⟨rest, rfl⟩ := data
  intro given
  obtain ⟨other, same⟩ := given
  have view : viewTag.toList = ['#', 'v', 'i', 'e', 'w'] := by decide
  have data : dataTag.toList = ['#', 'd', 'a', 't', 'a'] := by decide
  rw [view, data] at same
  cases same

section Splitting
variable {rows declarations views : List NumberedLine}

theorem splitAtViews_untitled (untitled : ∀ row ∈ declarations, ¬ viewTag.toList <+: row.2) :
    splitAtViews (declarations ++ rows) = (declarations ++ (splitAtViews rows).1, (splitAtViews rows).2) := by
  induction declarations with
  | nil => rfl
  | cons row declarations ih =>
    rw [List.forall_mem_cons] at untitled
    have plain : isViewHead row.2 = false := Bool.eq_false_iff.mpr fun titled => untitled.1 (isViewHead_iff.mp titled)
    rw [List.cons_append, splitAtViews, ih untitled.2]
    simp [plain]

theorem splitAtViews_titled {first : NumberedLine} {rest : List NumberedLine}
    (titled : viewTag.toList <+: first.2) : (splitAtViews (first :: rest)).1 = [] := by
  rw [splitAtViews, isViewHead_iff.mpr titled]
  rfl

theorem splitAtViews_heads (rows : List NumberedLine) :
    (splitAtViews rows).2.map ViewBlock.head = rows.filter fun row => viewTag.toList <+: row.2 := by
  induction rows with
  | nil => rfl
  | cons row rest ih =>
    rw [splitAtViews]
    by_cases titled : viewTag.toList <+: row.2
    · simp [isViewHead_iff.mpr titled, titled, ih]
    · have plain : isViewHead row.2 = false := Bool.eq_false_iff.mpr fun found => titled (isViewHead_iff.mp found)
      simp [plain, titled, ih]

end Splitting

section Layouts
variable {rows before declarations views : List NumberedLine} {header : NumberedLine}

theorem filter_plain {mark : List Char} {part : List NumberedLine} (plain : ∀ row ∈ part, ¬ mark <+: row.2) :
    part.filter (fun row => startsWith mark row.2) = [] := by
  rw [List.filter_eq_nil_iff]
  exact fun row listed found => plain row listed (startsWith_iff.mp found)

theorem Layout.dataHeads (layout : Layout rows before header declarations views) :
    rows.filter (fun row => isDataHead row.2) = [header] := by
  obtain ⟨blanks, _, spelled⟩ := layout.header
  have found : isDataHead header.2 = true := isDataHead_iff.mpr ⟨blanks, spelled.symm⟩
  have only := layout.only
  rw [List.forall_mem_append] at only
  have first : before.filter (fun row => isDataHead row.2) = [] := filter_plain only.1
  have rest : (declarations ++ views).filter (fun row => isDataHead row.2) = [] := filter_plain only.2
  rw [layout.rows, List.filter_append, first,
    List.filter_cons_of_pos (p := fun row : NumberedLine => isDataHead row.2) found, rest]
  rfl

theorem Layout.viewHeads (layout : Layout rows before header declarations views) : ∃ first rest,
    views = first :: rest ∧ rows.filter (fun row => isViewHead row.2) =
      first :: rest.filter (fun row => isViewHead row.2) := by
  obtain ⟨blanks, _, spelled⟩ := layout.header
  obtain ⟨first, rest, rfl, titled⟩ := layout.titled
  have untitled := layout.untitled
  rw [List.forall_mem_append] at untitled
  have noneBefore : before.filter (fun row => isViewHead row.2) = [] := filter_plain untitled.1
  have noneDeclared : declarations.filter (fun row => isViewHead row.2) = [] := filter_plain untitled.2
  have other : ¬ isViewHead header.2 = true := fun found =>
    not_view_of_data ⟨blanks, spelled.symm⟩ (isViewHead_iff.mp found)
  refine ⟨first, rest, rfl, ?_⟩
  rw [layout.rows, List.filter_append, noneBefore,
    List.filter_cons_of_neg (p := fun row : NumberedLine => isViewHead row.2) other, List.filter_append,
    noneDeclared, List.filter_cons_of_pos (p := fun row : NumberedLine => isViewHead row.2)
      (isViewHead_iff.mpr titled)]
  rfl

theorem Layout.tail (layout : Layout rows before header declarations views) :
    (rows.dropWhile fun row => !isDataHead row.2).tail = declarations ++ views := by
  obtain ⟨blanks, _, spelled⟩ := layout.header
  have only := layout.only
  rw [List.forall_mem_append] at only
  rw [layout.rows, dropWhile_stretch]
  · rfl
  · intro row listed
    rw [Bool.not_eq_true', Bool.eq_false_iff]
    exact fun found => only.1 row listed (isDataHead_iff.mp found)
  · intro row first
    cases first
    rw [Bool.not_eq_false', isDataHead_iff]
    exact ⟨blanks, spelled.symm⟩

theorem Layout.split (layout : Layout rows before header declarations views) :
    splitAtViews (declarations ++ views) = (declarations, (splitAtViews views).2) := by
  have untitled := layout.untitled
  rw [List.forall_mem_append] at untitled
  obtain ⟨first, rest, rfl, titled⟩ := layout.titled
  rw [splitAtViews_untitled untitled.2, splitAtViews_titled titled, List.append_nil]

-- The first view header stands below the data header, so it parts what comes after that.
theorem layout_of_heads {viewHead : NumberedLine} {otherViews : List NumberedLine} {blanks : List Char}
    (ordered : rows.Pairwise fun first second => first.1 < second.1)
    (dataHeads : rows.filter (fun row => isDataHead row.2) = [header])
    (viewHeads : rows.filter (fun row => isViewHead row.2) = viewHead :: otherViews)
    (below : ¬ viewHead.1 < header.1) (blank : isAllBlank blanks = true)
    (spelled : header.2 = dataTag.toList ++ blanks) :
    ∃ before declarations views, Layout rows before header declarations views := by
  obtain ⟨before, after, split, noneBefore, _, noneAfter⟩ := List.filter_eq_cons_iff.mp dataHeads
  obtain ⟨untitled, rest, parted, noneTitled, titled, _⟩ := List.filter_eq_cons_iff.mp viewHeads
  have other : header ≠ viewHead := by
    rintro rfl
    exact not_view_of_data ⟨blanks, spelled.symm⟩ (isViewHead_iff.mp titled)
  have same : before ++ header :: after = untitled ++ viewHead :: rest := split ▸ parted
  rcases List.append_eq_append_iff.mp same with ⟨middle, rfl, tail⟩ | ⟨middle, rfl, tail⟩
  · cases middle with
    | nil => exact absurd (List.cons.inj tail).1 other
    | cons first declarations =>
      obtain ⟨rfl, rfl⟩ := List.cons.inj tail
      refine ⟨before, declarations, viewHead :: rest, split, ⟨blanks, blank, spelled⟩, ?_, ?_,
        viewHead, rest, rfl, isViewHead_iff.mp titled⟩
      · rw [List.forall_mem_append]
        refine ⟨fun row listed found => noneBefore row listed (isDataHead_iff.mpr found), ?_⟩
        intro row listed found
        exact List.filter_eq_nil_iff.mp noneAfter row listed (isDataHead_iff.mpr found)
      · intro row listed found
        refine noneTitled row ?_ (isViewHead_iff.mpr found)
        rcases List.mem_append.mp listed with early | late
        · exact List.mem_append_left _ early
        · exact List.mem_append_right _ (List.mem_cons_of_mem _ late)
  · cases middle with
    | nil => exact absurd (List.cons.inj tail).1.symm other
    | cons first more =>
      obtain ⟨rfl, rfl⟩ := List.cons.inj tail
      rw [split] at ordered
      have lower := (List.pairwise_append.mp ordered).2.2 viewHead (by simp) header (by simp)
      exact absurd lower below

theorem regions_exact {regions : Regions} (ordered : rows.Pairwise fun first second => first.1 < second.1) :
    Regions.ofLines rows = .ok regions ↔ ∃ before header declarations views,
      Layout rows before header declarations views ∧ regions = ⟨declarations, (splitAtViews views).2⟩ := by
  have length : dataTag.length = dataTag.toList.length := by decide
  constructor
  · intro parted
    unfold Regions.ofLines at parted
    split at parted
    · cases parted
    · cases parted
    · rename_i header dataHeads
      split at parted
      · cases parted
      · rename_i viewHead otherViews viewHeads
        split at parted
        · cases parted
        · rename_i below
          split at parted
          · rename_i blank
            obtain ⟨_, _, _, _, found, _⟩ := List.filter_eq_cons_iff.mp dataHeads
            obtain ⟨blanks, spelled⟩ := isDataHead_iff.mp found
            rw [← spelled, length, List.drop_left] at blank
            obtain ⟨before, declarations, views, layout⟩ :=
              layout_of_heads ordered dataHeads viewHeads below blank spelled.symm
            rw [layout.tail, layout.split] at parted
            cases parted
            exact ⟨before, header, declarations, views, layout, rfl⟩
          · cases parted
  · intro given
    obtain ⟨before, header, declarations, views, layout, rfl⟩ := given
    obtain ⟨first, rest, rfl, viewHeads⟩ := layout.viewHeads
    obtain ⟨blanks, blank, spelled⟩ := layout.header
    have below : ¬ first.1 < header.1 := by
      rw [layout.rows] at ordered
      have above := (List.pairwise_append.mp ordered).2.1
      rw [List.pairwise_cons] at above
      have higher := above.1 first (by simp)
      omega
    have rest_blank : isAllBlank (header.2.drop dataTag.length) = true := by
      rw [spelled, length, List.drop_left]
      exact blank
    simp only [Regions.ofLines, layout.dataHeads, viewHeads, below, if_false, rest_blank, if_true, layout.tail,
      layout.split]

end Layouts

end WiredViews
