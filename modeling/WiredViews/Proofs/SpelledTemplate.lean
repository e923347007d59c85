import WiredViews.Proofs.SpelledLines
import WiredViews.Proofs.TemplateGrammar

namespace WiredViews

def spelledHeader (row : String × View) : String :=
  viewTag ++ "(" ++ row.1 ++ ")[" ++ row.2.mode.name ++ "]"

def Template.pieces (template : Template) : List String :=
  dataTag :: (template.context.spelled ++
    template.views.rows.flatMap fun row => [spelledHeader row, row.2.text])

def Template.spelled (template : Template) : String :=
  "\n".intercalate template.pieces

structure SpellableView (row : String × View) : Prop where
  named : isViewName row.1.toList = true
  bare : '\r' ∉ row.2.text.toList
  untagged : ∀ line ∈ splitLines row.2.text.toList, ¬ dataTag.toList <+: line ∧ ¬ viewTag.toList <+: line

structure Template.Spellable (template : Template) : Prop where
  context : template.context.Spellable
  views : ∀ row ∈ template.views.rows, SpellableView row
  some_view : template.views.rows ≠ []

section Declarations
variable {context : Context}

theorem declareAll_meanings {logical : List (LogicalLine Nat)} {meanings : List Declaration} {whole : Context}
    (given : List.Forall₂ (fun line declaration => IsDeclaration line.text declaration) logical meanings)
    (declared : meanings.foldlM Context.declare context = .ok whole) : declareAll context logical = .ok whole := by
  induction given generalizing context with
  | nil =>
    cases declared
    rfl
  | @cons line declaration _ _ here _ ih =>
    rw [List.foldlM_cons] at declared
    cases first : context.declare declaration with
    | error fault =>
      rw [first] at declared
      cases declared
    | ok more =>
      rw [first] at declared
      simp only [declareAll, declareText, declaration_exact.mpr here, first]
      exact ih declared

theorem assign_all (rows : List (String × Variable)) :
    (rows.map fun row => Declaration.assign row.1 row.2.assignment).foldlM Context.declare context =
      .ok { context with bindings := context.bindings.insertAll rows } := by
  induction rows generalizing context with
  | nil => rfl
  | cons row rest ih =>
    have first : context.declare (.assign row.1 row.2.assignment) = .ok (context.assign row.1 row.2) := by
      cases row.2 <;> rfl
    rw [List.map_cons, List.foldlM_cons, first]
    exact ih

theorem serve_all (rows : List (String × Service)) :
    (rows.map fun row => Declaration.serve row.1 row.2).foldlM Context.declare context =
      .ok { context with services := context.services.insertAll rows } := by
  induction rows generalizing context with
  | nil => rfl
  | cons row rest ih =>
    rw [List.map_cons, List.foldlM_cons]
    exact ih

def Context.meanings (context : Context) : List Declaration :=
  (context.bindings.rows.map fun row => Declaration.assign row.1 row.2.assignment) ++
    context.services.rows.map fun row => Declaration.serve row.1 row.2

theorem meanings_declared : context.meanings.foldlM Context.declare .empty = .ok context := by
  unfold Context.meanings
  rw [List.foldlM_append, assign_all]
  refine (serve_all context.services.rows).trans ?_
  unfold Context.empty
  rw [Table.insertAll_own_rows, Table.insertAll_own_rows]

theorem spelled_meanings (spellable : context.Spellable) :
    List.Forall₂ (fun text declaration => IsDeclaration text.toList declaration) context.spelled
      context.meanings := by
  refine List.rel_append ?_ ?_
  · rw [List.forall₂_map_left_iff, List.forall₂_map_right_iff, List.forall₂_same]
    intro row listed
    obtain ⟨declarable, meaning⟩ := spellable.bindings row listed
    exact spelled_binding declarable meaning
  · rw [List.forall₂_map_left_iff, List.forall₂_map_right_iff, List.forall₂_same]
    intro row listed
    obtain ⟨declarable, service⟩ := spellable.services row listed
    exact spelled_serving declarable service

theorem numbered_meanings {texts : List String} {meanings : List Declaration} (start : Nat)
    (given : List.Forall₂ (fun text declaration => IsDeclaration text.toList declaration) texts meanings) :
    List.Forall₂ (fun line declaration => IsDeclaration line.text declaration)
      ((numberLines (· + start) (texts.map String.toList)).map fun row => LogicalLine.mk row.1 row.2)
      meanings := by
  induction given generalizing start with
  | nil => exact .nil
  | cons here _ ih =>
    rw [List.map_cons, numberLines_cons, List.map_cons]
    exact .cons here (ih (start + 1))

theorem declareAll_spelled (spellable : context.Spellable) (start : Nat) :
    declareAll .empty (assemble (numberLines (· + start) (context.spelled.map String.toList))) = .ok context := by
  rw [assemble_dataLines]
  · exact declareAll_meanings (numbered_meanings start (spelled_meanings spellable)) meanings_declared
  · intro row listed
    obtain ⟨text, member, same⟩ := List.mem_map.mp (numbered_line listed)
    rw [← same]
    exact spelled_dataLine spellable member

end Declarations

section Views

def viewLines (row : String × View) : List Line :=
  (spelledHeader row).toList :: splitLines row.2.text.toList

theorem spelled_viewHeader {row : String × View} (named : isViewName row.1.toList = true) :
    IsViewHeader (spelledHeader row).toList row.1 row.2.mode := by
  refine ⟨_, _, [], .named named, .named row.2.mode, rfl, ?_⟩
  simp [spelledHeader]

theorem lineEnd_header {row : String × View} (named : isViewName row.1.toList = true) :
    LineEnd (spelledHeader row).toList := by
  have text : (spelledHeader row).toList =
      (viewTag.toList ++ '(' :: (row.1.toList ++ ')' :: '[' :: row.2.mode.name.toList)) ++ [']'] := by
    simp [spelledHeader]
  have name : '\n' ∉ row.1.toList := fun member =>
    absurd ((isViewName_iff.mp named).2 '\n' member) (by decide)
  have mode : '\n' ∉ row.2.mode.name.toList := by cases row.2.mode <;> decide
  have tag : '\n' ∉ viewTag.toList := by decide
  rw [text]
  exact (lineEnd_mark (by decide) (by decide)).append (by simp [name, mode, tag])

theorem spelledHeader_inj {row other : String × View} (named : isViewName row.1.toList = true)
    (renamed : isViewName other.1.toList = true)
    (same : (spelledHeader row).toList = (spelledHeader other).toList) : row.1 = other.1 := by
  obtain ⟨header, read, name, _⟩ := viewHeader_exact.mpr (spelled_viewHeader named)
  obtain ⟨twin, reread, rename, _⟩ := viewHeader_exact.mpr (spelled_viewHeader renamed)
  rw [same, reread, Option.some.injEq] at read
  rw [← name, ← rename, read]

def placedViews : Nat → List (String × View) → List (String × View)
  | _, [] => []
  | start, row :: rest =>
    (row.1, { row.2 with line := start }) :: placedViews (start + (viewLines row).length) rest

def placedBlocks : Nat → List (String × View) → List ViewBlock
  | _, [] => []
  | start, row :: rest =>
    ⟨(start, (spelledHeader row).toList), numberLines (· + (start + 1)) (splitLines row.2.text.toList)⟩ ::
      placedBlocks (start + (viewLines row).length) rest

theorem placedBlocks_heads (start : Nat) (rows : List (String × View)) :
    (placedBlocks start rows).map ViewBlock.head =
      (placedViews start rows).map fun row => (row.2.line, (spelledHeader row).toList) := by
  induction rows generalizing start with
  | nil => rfl
  | cons row rest ih =>
    rw [placedBlocks, placedViews, List.map_cons, List.map_cons, ih]
    rfl

theorem placedViews_names (start : Nat) (rows : List (String × View)) :
    (placedViews start rows).map Prod.fst = rows.map Prod.fst := by
  induction rows generalizing start with
  | nil => rfl
  | cons row rest ih => rw [placedViews, List.map_cons, List.map_cons, ih]

theorem placedViews_same (start : Nat) (rows : List (String × View)) :
    ((placedViews start rows).map fun row => (row.1, row.2.mode, row.2.text)) =
      rows.map fun row => (row.1, row.2.mode, row.2.text) := by
  induction rows generalizing start with
  | nil => rfl
  | cons row rest ih => rw [placedViews, List.map_cons, List.map_cons, ih]

theorem titled_header (row : String × View) : viewTag.toList <+: (spelledHeader row).toList := by
  refine ⟨'(' :: (row.1.toList ++ ')' :: '[' :: (row.2.mode.name.toList ++ [']'])), ?_⟩
  simp [spelledHeader]

theorem splitAtViews_placed {rows : List (String × View)} (spellable : ∀ row ∈ rows, SpellableView row)
    (start : Nat) : splitAtViews (numberLines (· + start) (rows.flatMap viewLines)) =
      ([], placedBlocks start rows) := by
  induction rows generalizing start with
  | nil => rfl
  | cons row rest ih =>
    rw [List.forall_mem_cons] at spellable
    have untitled : ∀ line ∈ numberLines (· + (start + 1)) (splitLines row.2.text.toList),
        ¬ viewTag.toList <+: line.2 :=
      fun line listed => (spellable.1.untagged line.2 (numbered_line listed)).2
    have length : start + 1 + (splitLines row.2.text.toList).length = start + (viewLines row).length := by
      simp only [viewLines, List.length_cons]
      omega
    rw [List.flatMap_cons, viewLines, List.cons_append, numberLines_cons, numberLines_append, splitAtViews,
      splitAtViews_untitled untitled, length, ih spellable.2]
    simp only [isViewHead_iff.mpr (titled_header row), if_true, List.append_nil]
    rfl

theorem readViews_placed {rows : List (String × View)} (spellable : ∀ row ∈ rows, SpellableView row)
    {views : Table String View} (start : Nat) (distinct : (rows.map Prod.fst).Nodup)
    (fresh : ∀ row ∈ rows, row.1 ∉ views.keys) :
    readViews views (placedBlocks start rows) = .ok (views.insertAll (placedViews start rows)) := by
  induction rows generalizing start views with
  | nil => rfl
  | cons row rest ih =>
    rw [List.forall_mem_cons] at spellable fresh
    rw [List.map_cons, List.nodup_cons] at distinct
    have text : joinBody (numberLines (· + (start + 1)) (splitLines row.2.text.toList)) = row.2.text.toList := by
      rw [joinBody, numberLines_texts, joinLines_splitLines, bareFeeds_same spellable.1.bare]
    have added : addView views ⟨(start, (spelledHeader row).toList),
        numberLines (· + (start + 1)) (splitLines row.2.text.toList)⟩ =
        .ok (views.insert row.1 { row.2 with line := start }) := by
      refine addView_exact.mpr ⟨row.1, row.2.mode, spelled_viewHeader spellable.1.named, fresh.1, ?_⟩
      rw [text, String.ofList_toList]
    rw [placedBlocks, readViews, added, placedViews, Table.insertAll_cons]
    refine ih spellable.2 _ distinct.2 fun other later => ?_
    rw [Table.mem_keys_insert, not_or]
    refine ⟨?_, fresh.2 other later⟩
    intro same
    exact distinct.1 (same ▸ List.mem_map_of_mem later)

end Views

section Templates
variable {template : Template}

theorem LineEnd.bare {text : List Char} (ended : LineEnd text) : text.getLast? ≠ some '\r' := by
  intro closing
  exact absurd (ended.last '\r' closing).1 (by decide)

theorem LineEnd.single {text : List Char} (ended : LineEnd text) : splitLines text = [text] :=
  splitLines_last ended.plain

theorem tag_lineEnd : LineEnd dataTag.toList :=
  LineEnd.append (lineEnd_mark (by decide) (by decide)) (show '\n' ∉ ['#', 'd', 'a', 't'] by decide)

theorem spelled_bare (spellable : template.Spellable) {piece : String} (listed : piece ∈ template.pieces) :
    piece.toList.getLast? ≠ some '\r' := by
  rcases List.mem_cons.mp listed with rfl | later
  · exact tag_lineEnd.bare
  · rcases List.mem_append.mp later with data | view
    · exact (spelled_dataLine spellable.context data).ended.bare
    · obtain ⟨row, member, part⟩ := List.mem_flatMap.mp view
      rcases List.mem_cons.mp part with rfl | rest
      · exact (lineEnd_header (spellable.views row member).named).bare
      · cases List.mem_singleton.mp rest
        exact fun closing => (spellable.views row member).bare (List.mem_of_mem_getLast? closing)

theorem splitLines_spelled (spellable : template.Spellable) : splitLines template.spelled.toList =
    dataTag.toList :: (template.context.spelled.map String.toList ++
      template.views.rows.flatMap viewLines) := by
  have feed : "\n".toList = ['\n'] := rfl
  have data : (template.context.spelled.map String.toList).flatMap splitLines =
      template.context.spelled.map String.toList := by
    have single : ∀ line ∈ template.context.spelled.map String.toList, splitLines line = [line] := by
      intro line listed
      obtain ⟨text, member, rfl⟩ := List.mem_map.mp listed
      exact (spelled_dataLine spellable.context member).ended.single
    rw [List.flatMap_congr single, List.flatMap_singleton']
  have views : ((template.views.rows.flatMap fun row => [spelledHeader row, row.2.text]).map String.toList).flatMap
      splitLines = template.views.rows.flatMap viewLines := by
    rw [List.map_flatMap, List.flatMap_assoc]
    refine List.flatMap_congr fun row member => ?_
    have header := (lineEnd_header (spellable.views row member).named).single
    simp [viewLines, header]
  unfold Template.spelled
  rw [String.toList_intercalate, feed, splitLines_pieces]
  · unfold Template.pieces
    rw [List.map_cons, List.map_append, List.flatMap_cons, List.flatMap_append, tag_lineEnd.single, data, views]
    rfl
  · simp [Template.pieces]
  · intro piece listed
    obtain ⟨text, member, rfl⟩ := List.mem_map.mp listed
    exact spelled_bare spellable member

def Template.firstView (template : Template) : Nat :=
  2 + template.context.spelled.length

def Template.placed (template : Template) : Template :=
  ⟨(∅ : Table String View).insertAll (placedViews template.firstView template.views.rows), template.context⟩

theorem placed_rows : template.placed.views.rows = placedViews template.firstView template.views.rows := by
  refine (Table.rows_insertAll ?_ fun _ _ => by simp [Table.mem_keys]).trans (List.nil_append _)
  rw [placedViews_names]
  exact template.views.keys_distinct

theorem spelled_layout (spellable : template.Spellable) : Layout (numberedLines template.spelled.toList) []
    (1, dataTag.toList) (numberLines (· + 2) (template.context.spelled.map String.toList))
    (numberLines (· + template.firstView) (template.views.rows.flatMap viewLines)) := by
  have data : ∀ row ∈ numberLines (· + 2) (template.context.spelled.map String.toList), DataLine row.2 := by
    intro row listed
    obtain ⟨text, member, same⟩ := List.mem_map.mp (numbered_line listed)
    rw [← same]
    exact spelled_dataLine spellable.context member
  have views : ∀ row ∈ numberLines (· + template.firstView) (template.views.rows.flatMap viewLines),
      ¬ dataTag.toList <+: row.2 := by
    intro row listed
    obtain ⟨view, member, line⟩ := List.mem_flatMap.mp (numbered_line listed)
    rcases List.mem_cons.mp line with header | text
    · rw [header]
      exact fun tagged => not_view_of_data tagged (titled_header view)
    · exact ((spellable.views view member).untagged row.2 text).1
  constructor
  case rows =>
    unfold numberedLines
    rw [splitLines_spelled spellable, numberLines_cons, numberLines_append, List.length_map]
    rfl
  case header => exact ⟨[], rfl, by simp⟩
  case only =>
    rw [List.nil_append]
    intro row listed
    rcases List.mem_append.mp listed with declared | viewed
    · exact (data row declared).untagged (by decide)
    · exact views row viewed
  case untitled => exact fun row listed => (data row listed).untagged (by decide)
  case titled =>
    obtain ⟨row, rest, same⟩ := List.exists_cons_of_ne_nil spellable.some_view
    rw [same, List.flatMap_cons, viewLines, List.cons_append, numberLines_cons]
    exact ⟨_, _, rfl, titled_header row⟩

theorem read_placed (spellable : template.Spellable) :
    Template.read template.spelled = .ok template.placed := by
  have visible : isAllBlank template.spelled.toList = false := by
    have listed : dataTag.toList ∈ splitLines template.spelled.toList := by
      rw [splitLines_spelled spellable]
      exact List.mem_cons_self
    exact (physicalLines_splitLines template.spelled.toList).visible listed (List.prefix_refl _)
  have parted := (regions_exact numbered_ordered).mpr ⟨_, _, _, _, spelled_layout spellable, rfl⟩
  have viewed := @readViews_placed _ spellable.views ∅ template.firstView template.views.keys_distinct
    fun _ _ => by simp [Table.mem_keys]
  have declared := declareAll_spelled spellable.context 2
  rw [splitAtViews_placed spellable.views] at parted
  unfold Template.read
  rw [if_neg (by simp [visible])]
  unfold Template.readLines numberedLines
  rw [parted]
  dsimp only
  rw [viewed, declared]
  rfl

theorem placed_named (spellable : template.Spellable) {row : String × View}
    (listed : row ∈ template.placed.views.rows) : isViewName row.1.toList = true := by
  rw [placed_rows] at listed
  have named := List.mem_map_of_mem (f := Prod.fst) listed
  rw [placedViews_names] at named
  obtain ⟨view, member, same⟩ := List.mem_map.mp named
  rw [← same]
  exact (spellable.views view member).named

theorem mem_headers (spellable : template.Spellable) {number : Nat} {line : Line} (titled : viewTag.toList <+: line) :
    (number, line) ∈ numberedLines template.spelled.toList ↔
      ∃ row ∈ template.placed.views.rows, row.2.line = number ∧ (spelledHeader row).toList = line := by
  have layout := spelled_layout spellable
  have heads := splitAtViews_heads (numberLines (· + template.firstView) (template.views.rows.flatMap viewLines))
  rw [splitAtViews_placed spellable.views, placedBlocks_heads, ← placed_rows] at heads
  have viewed : (number, line) ∈ numberedLines template.spelled.toList ↔
      (number, line) ∈ numberLines (· + template.firstView) (template.views.rows.flatMap viewLines) := by
    rw [layout.rows, List.nil_append, List.mem_cons, List.mem_append]
    constructor
    · rintro (header | declared | viewed)
      · cases header
        exact absurd titled (not_view_of_data (List.prefix_refl _))
      · exact absurd titled (layout.untitled _ (List.mem_append_right _ declared))
      · exact viewed
    · exact fun viewed => Or.inr (Or.inr viewed)
  have kept : (number, line) ∈ numberLines (· + template.firstView) (template.views.rows.flatMap viewLines) ↔
      (number, line) ∈ (numberLines (· + template.firstView) (template.views.rows.flatMap viewLines)).filter
        fun row => viewTag.toList <+: row.2 := by
    rw [List.mem_filter]
    simp [titled]
  rw [viewed, kept, ← heads, List.mem_map]
  simp only [Prod.mk.injEq]

theorem placed_line (spellable : template.Spellable) {row : String × View}
    (listed : row ∈ template.placed.views.rows) (number : Nat) :
    (number, (spelledHeader row).toList) ∈ numberedLines template.spelled.toList ↔ number = row.2.line := by
  rw [mem_headers spellable (titled_header row)]
  constructor
  · rintro ⟨other, member, rfl, same⟩
    have name := spelledHeader_inj (placed_named spellable member) (placed_named spellable listed) same
    rw [List.inj_on_of_nodup_map template.placed.views.keys_distinct member listed name]
  · rintro rfl
    exact ⟨row, listed, rfl, rfl⟩

end Templates

-- The same template, but every view knows where its header stands in the text.
structure Template.ReadBack (template read : Template) : Prop where
  context : read.context = template.context
  views : (read.views.rows.map fun row => (row.1, row.2.mode, row.2.text)) =
    template.views.rows.map fun row => (row.1, row.2.mode, row.2.text)
  lines : ∀ row ∈ read.views.rows, ∀ number,
    (number, (spelledHeader row).toList) ∈ numberedLines template.spelled.toList ↔ number = row.2.line

-- Only the lines of the views are new. Before it is written out, a template need not know them.
theorem read_spelled {template : Template} (spellable : template.Spellable) :
    ∃ read, Template.read template.spelled = .ok read ∧ template.ReadBack read := by
  refine ⟨template.placed, read_placed spellable, rfl, ?_, fun row listed => placed_line spellable listed⟩
  rw [placed_rows, placedViews_same]

def timetable : Template where
  views := Table.ofList [("board", ⟨.text, "To the stop:\n", 0⟩)]
  context :=
    ⟨Table.ofList [("start", .constant "// it's = $start; \\"), ("stop", .reference "out" "goal")],
      Table.ofList [("out", ⟨"Trip", [⟨"from", "start"⟩]⟩)]⟩

theorem timetable_spellable : timetable.Spellable := by
  have declarable : ∀ name ∈ ["start", "stop", "out"], Declarable name := by
    intro name listed
    rw [declarable_iff]
    revert name
    decide +kernel
  have bindings : timetable.context.bindings.rows =
      [("start", .constant "// it's = $start; \\"), ("stop", .reference "out" "goal")] := rfl
  have services : timetable.context.services.rows = [("out", ⟨"Trip", [⟨"from", "start"⟩]⟩)] := rfl
  have views : timetable.views.rows = [("board", ⟨.text, "To the stop:\n", 0⟩)] := rfl
  refine ⟨⟨?_, ?_⟩, ?_, by simp [views]⟩
  · rw [bindings, List.forall_mem_cons, List.forall_mem_singleton]
    exact ⟨⟨declarable _ (by decide), .constant (by decide)⟩,
      declarable _ (by decide), .reference (by decide) (by decide)⟩
  · rw [services, List.forall_mem_singleton]
    refine ⟨declarable _ (by decide), by decide, ?_, by decide⟩
    rw [List.forall_mem_singleton]
    exact ⟨by decide, by decide⟩
  · rw [views, List.forall_mem_singleton]
    exact ⟨by decide, by decide, by decide +kernel⟩

theorem timetable_again : timetable.spelled =
      "#data\n$start = '// it's = $start; \\'\n$stop = goal <- @out\n" ++
        "@out = Trip \x7b from = $start; \x7d\n#view(board)[text]\nTo the stop:\n" ∧
    timetable.Spellable ∧
    ∃ read, Template.read timetable.spelled = .ok read ∧ timetable.ReadBack read :=
  ⟨by decide +kernel, timetable_spellable, read_spelled timetable_spellable⟩

end WiredViews
