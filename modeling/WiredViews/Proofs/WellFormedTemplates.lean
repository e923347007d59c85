import WiredViews.Proofs.RegionLines
import WiredViews.Proofs.SpelledLines

-- What can be relied on in every template that was read: all names are names, no constant goes
-- over a line, and no view has a header in it.
namespace WiredViews

structure Template.WellFormed (text : String) (template : Template) : Prop where
  context : template.context.Spellable
  served : ∃ above header region below, Framed (splitLines text.toList) above header region below ∧
    ∀ row ∈ template.context.services.rows, ∃ declared ∈ regionTexts region, IsDeclaration declared (.serve row.1 row.2)
  some_view : template.views.rows ≠ []
  named : ∀ row ∈ template.views.rows, isViewName row.1.toList = true
  headed : ∀ row ∈ template.views.rows, ∃ line, (row.2.line, line) ∈ numberedLines text.toList ∧
    viewTag.toList <+: line ∧ IsViewHeader line row.1 row.2.mode
  ordered : (template.views.rows.map fun row => row.2.line).Pairwise (· < ·)
  untagged : ∀ row ∈ template.views.rows, ∀ line ∈ row.2.text.toList.splitOn '\n', Untagged line

section Characters
variable {ν : Type} {c : Char}

theorem mem_trim {text : List Char} (member : c ∈ trim text) : c ∈ text := by
  obtain ⟨before, after, _, _, split⟩ := (trims_trim text).around
  rw [split]
  simp [member]

theorem assembleFrom_texts (pending : Option (Unfinished ν)) (rows : List (ν × Line)) :
    ∀ line ∈ assembleFrom pending rows, ∃ whole, line.text = trim whole ∧
      whole ⊆ (pending.map Unfinished.text).getD [] ++ rows.flatMap Prod.snd := by
  induction rows generalizing pending with
  | nil =>
    cases pending with
    | none => simp [assembleFrom]
    | some open_ =>
      rw [assembleFrom]
      split
      · simp
      · rw [List.forall_mem_singleton]
        exact ⟨open_.text, rfl, by simp⟩
  | cons row rest ih =>
    have before : pending.getD ⟨row.1, []⟩ =
        ⟨(pending.map Unfinished.start).getD row.1, (pending.map Unfinished.text).getD []⟩ := by
      cases pending <;> rfl
    rw [List.flatMap_cons]
    cases ignored : isIgnorable row.2 with
    | true =>
      rw [assembleFrom_ignored ignored]
      intro line listed
      obtain ⟨whole, trimmed, known⟩ := ih pending line listed
      exact ⟨whole, trimmed, by grind⟩
    | false =>
      rcases continues_or_closes row.2 with ⟨piece, continues⟩ | ⟨piece, closes⟩
      · have inside : piece ⊆ row.2 := fun c member =>
          mem_trim (trims_exact.mp continues ▸ List.mem_append_left _ member)
        rw [assembleFrom_continues ignored continues before]
        intro line listed
        obtain ⟨whole, trimmed, known⟩ := ih _ line listed
        exact ⟨whole, trimmed, by grind⟩
      · have inside : piece ⊆ row.2 := fun c member => mem_trim (trims_exact.mp closes.1 ▸ member)
        rw [assembleFrom_closes ignored closes before, List.forall_mem_cons]
        constructor
        · exact ⟨_, rfl, by grind⟩
        · intro line listed
          obtain ⟨whole, trimmed, known⟩ := ih none line listed
          exact ⟨whole, trimmed, by grind⟩

theorem regionTexts_lack {region : List Line} (lacking : ∀ line ∈ region, c ∉ line) :
    ∀ text ∈ regionTexts region, c ∉ text := by
  rw [regionTexts, List.forall_mem_map]
  intro line listed member
  obtain ⟨whole, trimmed, known⟩ := assembleFrom_texts none _ line listed
  rw [trimmed] at member
  obtain ⟨physical, inside, there⟩ := List.mem_flatMap.mp (known (mem_trim member))
  obtain ⟨own, listed, rfl⟩ := List.mem_map.mp inside
  exact lacking own listed there

theorem regionTexts_trimmed (region : List Line) : ∀ text ∈ regionTexts region, trim text = text := by
  rw [regionTexts, List.forall_mem_map]
  intro line listed
  obtain ⟨whole, trimmed, _⟩ := assembleFrom_texts none _ line listed
  rw [trimmed, trim_trim]

end Characters

section Declaring
variable {text : List Char} {texts : List (List Char)} {context whole : Context}

theorem assignment_spellable {assignment : Assignment} {meaning : Variable} (given : IsAssignment text assignment)
    (plain : '\n' ∉ text) (means : meaning.assignment = assignment) : meaning.Spellable := by
  cases given with
  | @literal value spaced =>
    obtain ⟨blanks, rest, _, rfl, _⟩ := spaced_cons.mp spaced
    cases meaning with
    | reference => cases means
    | constant =>
      cases means
      exact .constant fun member => plain (by simp [member])
  | reference output owner spaced =>
    cases meaning with
    | constant => cases means
    | reference =>
      cases means
      exact .reference owner output
  | copy named spaced => cases meaning <;> cases means

theorem service_spellable {service : Service} (given : IsService text service) : service.Spellable := by
  cases given with
  | bare named _ => exact ⟨named, by simp, by simp⟩
  | block named spelled distinct _ => exact ⟨named, spelled, distinct⟩

-- A context of which every part can be traced: variables are fit to be written out, and services
-- are declared in one of the texts under the name that they are listed by.
structure Traced (texts : List (List Char)) (context : Context) : Prop where
  bindings : ∀ row ∈ context.bindings.rows, Declarable row.1 ∧ row.2.Spellable
  services : ∀ row ∈ context.services.rows, ∃ text ∈ texts, IsDeclaration text (.serve row.1 row.2)

theorem traced_empty : Traced texts .empty :=
  ⟨List.forall_mem_nil _, List.forall_mem_nil _⟩

theorem Traced.assign {name : String} {meaning : Variable} (traced : Traced texts context)
    (declarable : Declarable name) (spellable : meaning.Spellable) : Traced texts (context.assign name meaning) := by
  refine ⟨fun row listed => ?_, traced.services⟩
  rcases Table.mem_rows_insert listed with rfl | before
  · exact ⟨declarable, spellable⟩
  · exact traced.bindings row before

theorem Traced.declare {declaration : Declaration} (traced : Traced texts context) (listed : text ∈ texts)
    (plain : '\n' ∉ text) (given : IsDeclaration text declaration)
    (declared : context.declare declaration = .ok whole) : Traced texts whole := by
  cases given with
  | @serve left right name service split first identifier declarable value =>
    cases declared
    refine ⟨traced.bindings, fun row member => ?_⟩
    rcases Table.mem_rows_insert member with rfl | before
    · exact ⟨text, listed, .serve split first identifier declarable value⟩
    · exact traced.services row before
  | @assign left right name assignment split first identifier declarable value =>
    have fits : '\n' ∉ right := fun member => plain (by simp [split, member])
    cases assignment with
    | literal value' =>
      cases declared
      exact traced.assign declarable (assignment_spellable value fits rfl)
    | reference service field =>
      cases declared
      exact traced.assign declarable (assignment_spellable value fits rfl)
    | copy target =>
      rw [Context.declare] at declared
      split at declared
      · cases declared
      · rename_i meaning held
        cases declared
        exact traced.assign declarable (traced.bindings (target, meaning) (Table.get?_eq_some.mp held)).2

theorem Traced.declareTexts {rest : List (List Char)} (traced : Traced texts context)
    (listed : ∀ text ∈ rest, text ∈ texts) (plain : ∀ text ∈ rest, '\n' ∉ text)
    (declared : WiredViews.declareTexts context rest = .ok whole) : Traced texts whole := by
  induction rest generalizing context with
  | nil =>
    rw [declareTexts_nil] at declared
    cases declared
    exact traced
  | cons text rest ih =>
    rw [List.forall_mem_cons] at listed plain
    obtain ⟨declaration, more, given, here, later⟩ := declareTexts_ok.mp declared
    exact ih (traced.declare listed.1 plain.1 given here) listed.2 plain.2 later

theorem Traced.spellable (traced : Traced texts context) : context.Spellable := by
  refine ⟨traced.bindings, fun row listed => ?_⟩
  obtain ⟨text, _, given⟩ := traced.services row listed
  cases given with
  | serve _ _ _ declarable value => exact ⟨declarable, service_spellable value⟩

end Declaring

section Views
variable {text : String} {above region below : List Line} {header : Line}

theorem forall₂_right {α β : Type} {holds : α → β → Prop} {items : List α} {others : List β}
    (pairs : List.Forall₂ holds items others) : ∀ other ∈ others, ∃ item ∈ items, holds item other := by
  induction pairs with
  | nil => simp
  | @cons item other items others first _ ih =>
    rw [List.forall_mem_cons]
    refine ⟨⟨item, by simp, first⟩, fun later listed => ?_⟩
    obtain ⟨found, member, holds⟩ := ih later listed
    exact ⟨found, List.mem_cons_of_mem _ member, holds⟩

theorem viewName_allowed {line : Line} {name : String} {mode : RenderMode} (header : IsViewHeader line name mode) :
    isViewName name.toList = true := by
  obtain ⟨title, _, _, titled, _⟩ := header.spelled
  cases titled with
  | missing => decide
  | named allowed => exact allowed

theorem mem_splitOn_join {lines : List Line} (plain : ∀ line ∈ lines, '\n' ∉ line) {line : Line}
    (listed : line ∈ (joinLines lines).splitOn '\n') : line = [] ∨ line ∈ lines := by
  cases lines with
  | nil =>
    left
    simpa [joinLines] using listed
  | cons first rest =>
    right
    rwa [joinLines, List.splitOn_intercalate '\n' plain (by simp)] at listed

theorem untagged_nil : Untagged [] :=
  ⟨by decide, by decide⟩

theorem Framed.block_rows (framed : Framed (splitLines text.toList) above header region below) {block : ViewBlock}
    (listed : block ∈ viewBlocks (above.length + 2 + region.length) below) :
    ∀ row ∈ block.head :: block.body, row ∈ numberedLines text.toList ∧ row.2 ∈ below := by
  intro row member
  have inside : row ∈ numberLines (· + (above.length + 2 + region.length)) below := by
    rw [← viewBlocks_flatten framed.titled]
    exact List.mem_flatMap.mpr ⟨block, listed, member⟩
  refine ⟨?_, numbered_line inside⟩
  rw [numberedLines, framed.layout.rows]
  simp [inside]

theorem Framed.ordered (framed : Framed (splitLines text.toList) above header region below) :
    ((viewBlocks (above.length + 2 + region.length) below).map fun block => block.head.1).Pairwise (· < ·) := by
  have sorted := @numbered_ordered (splitLines text.toList)
  rw [framed.layout.rows, ← List.cons_append, ← List.append_assoc] at sorted
  have heads := splitAtViews_heads (numberLines (· + (above.length + 2 + region.length)) below)
  have numbers := ((List.pairwise_append.mp sorted).2.1.sublist (List.filter_sublist (p := fun row =>
    viewTag.toList <+: row.2)))
  rw [← heads] at numbers
  rw [List.pairwise_map] at numbers ⊢
  exact numbers

variable {rows : List (String × View)}

theorem Framed.some_view (framed : Framed (splitLines text.toList) above header region below)
    (views : List.Forall₂ ViewOf (viewBlocks (above.length + 2 + region.length) below) rows) : rows ≠ [] := by
  rintro rfl
  rw [List.forall₂_nil_right_iff] at views
  have lines := @viewBlocks_flatten (above.length + 2 + region.length) below framed.titled
  obtain ⟨first, rest, rfl, _⟩ := framed.titled
  rw [views, numberLines_cons] at lines
  cases lines

theorem Framed.views_ordered (framed : Framed (splitLines text.toList) above header region below)
    (views : List.Forall₂ ViewOf (viewBlocks (above.length + 2 + region.length) below) rows) :
    (rows.map fun row => row.2.line).Pairwise (· < ·) := by
  have lines : (rows.map fun row => row.2.line) =
      (viewBlocks (above.length + 2 + region.length) below).map fun block => block.head.1 := by
    rw [← List.forall₂_eq_eq_eq, List.forall₂_map_left_iff, List.forall₂_map_right_iff]
    exact views.flip.imp fun _ _ view => view.line
  rw [lines]
  exact framed.ordered

theorem Framed.body_untagged (framed : Framed (splitLines text.toList) above header region below)
    {block : ViewBlock} (listed : block ∈ viewBlocks (above.length + 2 + region.length) below) :
    ∀ line ∈ (joinBody block.body).splitOn '\n', Untagged line := by
  intro line member
  have bodies := (splitAtViews_bodies (numberLines (· + (above.length + 2 + region.length)) below)).2
  have rows := framed.block_rows listed
  rw [List.forall_mem_cons] at rows
  have unbroken : ∀ line ∈ block.body.map Prod.snd, '\n' ∉ line := by
    rw [List.forall_mem_map]
    exact fun row part => (physicalLines_splitLines text.toList).plain (numbered_line (rows.2 row part).1)
  rw [joinBody] at member
  rcases mem_splitOn_join unbroken member with rfl | found
  · exact untagged_nil
  · obtain ⟨row, part, rfl⟩ := List.mem_map.mp found
    exact ⟨framed.single row.2 (rows.2 row part).2, bodies block listed row part⟩

theorem Framed.traced (framed : Framed (splitLines text.toList) above header region below) {context : Context}
    (declared : declareTexts .empty (regionTexts region) = .ok context) : Traced (regionTexts region) context := by
  obtain ⟨_, _, plain, _⟩ := framed.plain
  exact traced_empty.declareTexts (fun _ listed => listed) (regionTexts_lack plain) declared

theorem read_spellable {template : Template} (read : Template.read text = .ok template) :
    template.context.Spellable := by
  obtain ⟨above, header, region, below, framed⟩ := read_framed read
  exact (framed.traced (framed.read_ok.mp read).2).spellable

end Views

theorem read_wellFormed {text : String} {template : Template} (read : Template.read text = .ok template) :
    template.WellFormed text := by
  obtain ⟨above, header, region, below, framed⟩ := read_framed read
  obtain ⟨viewed, declared⟩ := framed.read_ok.mp read
  have views := readViews_exactly.mp viewed
  have placed := forall₂_right views
  have traced := framed.traced declared
  constructor
  case context => exact traced.spellable
  case served => exact ⟨above, header, region, below, framed, traced.services⟩
  case some_view => exact framed.some_view views
  case named =>
    intro row listed
    obtain ⟨block, _, view⟩ := placed row listed
    exact viewName_allowed view.header
  case headed =>
    intro row listed
    obtain ⟨block, member, view⟩ := placed row listed
    obtain ⟨title, bracket, blanks, _, _, _, spelled⟩ := view.header.spelled
    refine ⟨block.head.2, ?_, ⟨_, spelled.symm⟩, view.header⟩
    rw [view.line]
    exact (framed.block_rows member _ (by simp)).1
  case ordered => exact framed.views_ordered views
  case untagged =>
    intro row listed
    obtain ⟨block, member, view⟩ := placed row listed
    rw [view.text]
    exact framed.body_untagged member

def noticeboard : String :=
  "Notices\r\n#data \n$start = 'Oslo \\\n  pier'\n$port = $start\n@over = Ferry \x7b\\\n  // by day\n" ++
    "from = $port; \x7d\n#view(board)[text]\n$start\n\n#view\n"

theorem noticeboard_wellFormed : ∃ template, Template.read noticeboard = .ok template ∧
    template.WellFormed noticeboard ∧ template.context.bindings.rows =
      [("start", .constant "Oslo pier"), ("port", .constant "Oslo pier")] := by
  have known : (Template.read noticeboard).toOption.map (fun template => template.context.bindings.rows) =
      some [("start", .constant "Oslo pier"), ("port", .constant "Oslo pier")] := by decide +kernel
  obtain ⟨template, read, bindings⟩ := read_known known
  exact ⟨template, read, read_wellFormed read, bindings⟩

end WiredViews
