import WiredViews.Proofs.FirstItem
import WiredViews.Proofs.LaidLines
import WiredViews.Proofs.OutlinedTexts

-- Texts laid out anew: more comments and blank lines between the data header and the first view
-- header, and other line endings. The meaning stays, and so does the line that an error is in.
namespace WiredViews

structure Relaid (text other : String) (above : List Line) (header : Line) (inner : List LaidLine)
    (below : List Line) : Prop where
  outline : Outline (splitLines text.toList) above header (keptLines inner) below
  remarks : ∀ line, .added line ∈ inner → Ignorable line ∧ '\n' ∉ line
  written : ∃ marks, other.toList = withReturns marks (joinLines (above ++ header :: (laidLines inner ++ below)))

structure SameView (rows : List LaidLine) (row other : String × View) : Prop where
  name : other.1 = row.1
  mode : other.2.mode = row.2.mode
  text : other.2.text = row.2.text
  line : StandsAt rows row.2.line other.2.line

-- The same template but for the places of the views, or the same fault in the same line.
inductive SameReading (rows : List LaidLine) :
    Except SyntaxError Template → Except SyntaxError Template → Prop where
  | template {template other : Template} (context : other.context = template.context)
      (views : List.Forall₂ (SameView rows) template.views.rows other.views.rows) :
      SameReading rows (.ok template) (.ok other)
  | fault {fault : SyntaxFault} {number place : Nat} (moved : StandsAt rows number place) :
      SameReading rows (.error ⟨fault, some number⟩) (.error ⟨fault, some place⟩)

structure Spread (lines others above : List Line) (header : Line) (inner : List LaidLine) (below : List Line) : Prop where
  outline : Outline lines above header (keptLines inner) below
  ignored : ∀ line, .added line ∈ inner → isIgnorable line = true
  lines : others = above ++ header :: (laidLines inner ++ below)

theorem readViews_laid (above : List Line) (header : Line) (inner : List LaidLine) (below : List Line) :
    (∃ table twin, readViews ∅ (viewBlocks (above.length + 2 + (keptLines inner).length) below) = .ok table ∧
      readViews ∅ (viewBlocks (above.length + 2 + inner.length) below) = .ok twin ∧
      List.Forall₂ (SameView (laidOut above header inner below)) table.rows twin.rows) ∨
    ∃ fault number place, StandsAt (laidOut above header inner below) number place ∧
      readViews ∅ (viewBlocks (above.length + 2 + (keptLines inner).length) below) = .error ⟨fault, some number⟩ ∧
      readViews ∅ (viewBlocks (above.length + 2 + inner.length) below) = .error ⟨fault, some place⟩ := by
  obtain ⟨count, total⟩ := Nat.exists_eq_add_of_le (keptLines_length inner)
  have moved : above.length + 2 + inner.length = above.length + 2 + (keptLines inner).length + count := by
    rw [total]
    omega
  have stands : ∀ block ∈ viewBlocks (above.length + 2 + (keptLines inner).length) below,
      StandsAt (laidOut above header inner below) block.head.1 (block.head.1 + count) := by
    intro block listed
    obtain ⟨offset, within, placed⟩ := viewBlocks_place listed
    have place := @standsAt_view inner above below header _ within
    have lowered : above.length + 2 + inner.length + offset = block.head.1 + count := by omega
    rwa [← placed, lowered] at place
  rw [moved, viewBlocks_lowered _ count]
  rcases readViews_both ∅ (viewBlocks (above.length + 2 + (keptLines inner).length) below) count with
    ⟨table, read, reread⟩ | ⟨fault, block, listed, failed, refailed⟩
  · have viewed := forall₂_right (readViews_exactly.mp read)
    refine Or.inl ⟨table, _, read, reread, ?_⟩
    rw [loweredViews, Table.mapRows, List.forall₂_map_right_iff, List.forall₂_same]
    intro row listed
    obtain ⟨block, member, view⟩ := viewed row listed
    constructor
    case name => rfl
    case mode => rfl
    case text => rfl
    case line =>
      have placed := stands block member
      rw [← view.line] at placed
      exact placed
  · exact Or.inr ⟨fault, _, _, stands block listed, failed, refailed⟩

namespace Spread
variable {text other : String} {lines others above below : List Line} {header : Line} {inner : List LaidLine}

theorem relaid (spread : Spread lines others above header inner below) :
    Outline others above header (laidLines inner) below := by
  constructor
  case lines => exact spread.lines
  case header => exact spread.outline.header
  case above => exact spread.outline.above
  case titled => exact spread.outline.titled
  case region =>
    intro line listed
    obtain ⟨row, given, rfl⟩ := List.mem_map.mp listed
    cases row with
    | kept line => exact spread.outline.region line (mem_keptLines.mpr given)
    | added line => exact (untagged_of_ignorable (spread.ignored line given)).view

theorem second (spread : Spread lines others above header inner below)
    (found : ∃ line ∈ keptLines inner ++ below, dataTag.toList <+: line) :
    ∃ number place, StandsAt (laidOut above header inner below) number place ∧
      Regions.ofLines (numberLines (· + 1) lines) = .error ⟨.secondDataRegion, some number⟩ ∧
      Regions.ofLines (numberLines (· + 1) others) = .error ⟨.secondDataRegion, some place⟩ := by
  have plain : ∀ line ∈ above, ¬ dataTag.toList <+: line := fun line listed => (spread.outline.above line listed).data
  have among : ∃ row ∈ inner ++ below.map .kept, dataTag.toList <+: row.line := by
    obtain ⟨line, listed, tagged⟩ := found
    refine ⟨.kept line, ?_, tagged⟩
    rw [← mem_keptLines, keptLines_append, keptLines_kept]
    exact listed
  obtain ⟨row, front, back, split, tagged, earlier⟩ := exists_isFirst.mpr among
  have kept : keptLines inner ++ below = keptLines (inner ++ below.map .kept) := by
    rw [keptLines_append, keptLines_kept]
  have laid : laidLines inner ++ below = laidLines (inner ++ below.map .kept) := by
    rw [laidLines_append, laidLines_kept]
  have given : row ∈ inner ++ below.map .kept := by
    rw [split]
    simp
  rw [spread.outline.lines, spread.lines, kept, laid, split]
  cases row with
  | added line =>
    rcases List.mem_append.mp given with inside | outside
    · exact absurd tagged (untagged_of_ignorable (spread.ignored line inside)).data
    · simp at outside
  | kept line =>
    have kept_front : ∀ line ∈ keptLines front, ¬ dataTag.toList <+: line :=
      fun line listed => earlier _ (mem_keptLines.mp listed)
    have laid_front : ∀ line ∈ laidLines front, ¬ dataTag.toList <+: line := List.forall_mem_map.mpr earlier
    refine ⟨_, _, standsAt_below split, ?_, ?_⟩
    · rw [keptLines_append]
      exact regions_second spread.outline.header tagged plain kept_front
    · rw [laidLines_append, ← laidLines_length front]
      exact regions_second spread.outline.header tagged plain laid_front

theorem declarations (spread : Spread lines others above header inner below) (context : Context) :
    (∃ whole,
      declareAll context (assemble (numberLines (· + (above.length + 2)) (keptLines inner))) = .ok whole ∧
      declareAll context (assemble (numberLines (· + (above.length + 2)) (laidLines inner))) = .ok whole) ∨
    ∃ fault number place, StandsAt (laidOut above header inner below) number place ∧
      declareAll context (assemble (numberLines (· + (above.length + 2)) (keptLines inner))) =
        .error ⟨fault, some number⟩ ∧
      declareAll context (assemble (numberLines (· + (above.length + 2)) (laidLines inner))) =
        .error ⟨fault, some place⟩ := by
  have first : assemble (numberLines (· + (above.length + 2)) (keptLines inner)) =
      (assemble (keptRows (above.length + 2) (above.length + 2) inner)).map (LogicalLine.renumber Prod.fst) := by
    rw [← keptRows_numbers (above.length + 2) (above.length + 2)]
    exact assembleFrom_renumber Prod.fst none _
  have second : assemble (numberLines (· + (above.length + 2)) (laidLines inner)) =
      (assemble (keptRows (above.length + 2) (above.length + 2) inner)).map (LogicalLine.renumber Prod.snd) := by
    have counted := keptRows_places (above.length + 2) (above.length + 2) spread.ignored
    unfold countedRows at counted
    calc assemble (numberLines (· + (above.length + 2)) (laidLines inner))
        = assemble ((keptRows (above.length + 2) (above.length + 2) inner).map fun row => (row.1.2, row.2)) := by
          rw [assemble, assembleFrom_filter, counted, ← assembleFrom_filter, ← assemble]
      _ = (assemble (keptRows (above.length + 2) (above.length + 2) inner)).map (LogicalLine.renumber Prod.snd) :=
          assembleFrom_renumber Prod.snd none _
  rw [first, second]
  rcases declareAll_both context (assemble (keptRows (above.length + 2) (above.length + 2) inner)) Prod.fst Prod.snd
    with declared | ⟨fault, line, listed, failed⟩
  · exact Or.inl declared
  · have numbers := (assemble_numbers (keptRows (above.length + 2) (above.length + 2) inner)).subset
      (List.mem_map_of_mem listed)
    obtain ⟨row, given, same⟩ := List.mem_map.mp numbers
    obtain ⟨front, back, split, numbered, placed⟩ := mem_keptRows given
    have whole : inner ++ below.map .kept = front ++ .kept row.2 :: (back ++ below.map .kept) := by
      rw [split, List.append_assoc, List.cons_append]
    have place := @standsAt_below _ _ inner above below header _ whole
    rw [← numbered, ← placed, same] at place
    exact Or.inr ⟨fault, _, _, place, failed⟩

-- However far the reading of the one text comes, the reading of the other comes as far.
theorem read (spread : Spread (splitLines text.toList) (splitLines other.toList) above header inner below) :
    SameReading (laidOut above header inner below) (Template.read text) (Template.read other) := by
  by_cases single : ∀ line ∈ keptLines inner ++ below, ¬ dataTag.toList <+: line
  · have laid_single : ∀ line ∈ laidLines inner ++ below, ¬ dataTag.toList <+: line := by
      rw [List.forall_mem_append] at single ⊢
      refine ⟨List.forall_mem_map.mpr fun row listed => ?_, single.2⟩
      cases row with
      | kept line => exact single.1 line (mem_keptLines.mpr listed)
      | added line => exact (untagged_of_ignorable (spread.ignored line listed)).data
    by_cases right : isAllBlank (header.drop dataTag.length) = true
    · rw [(spread.outline.framed single right).read, (spread.relaid.framed laid_single right).read, laidLines_length]
      rcases readViews_laid above header inner below with
        ⟨table, twin, read, reread, same⟩ | ⟨fault, number, place, moved, failed, refailed⟩
      · rw [read, reread]
        rcases spread.declarations .empty with
          ⟨whole, declared, redeclared⟩ | ⟨fault, number, place, moved, failed, refailed⟩
        · rw [declared, redeclared]
          exact .template rfl same
        · rw [failed, refailed]
          exact .fault moved
      · rw [failed, refailed]
        exact .fault moved
    · rw [spread.outline.refused (spread.outline.regions_header single right),
        spread.relaid.refused (spread.relaid.regions_header laid_single right)]
      exact .fault standsAt_header
  · push Not at single
    obtain ⟨number, place, moved, failed, refailed⟩ := spread.second single
    rw [spread.outline.refused failed, spread.relaid.refused refailed]
    exact .fault moved

end Spread

section Endings
variable {rows others inner : List LaidLine} {above below : List Line} {header : Line} {text other : String}
  {first second : Except SyntaxError Template}

theorem SameReading.reshaped (reading : SameReading rows first second)
    (same : others.map LaidLine.kept? = rows.map LaidLine.kept?) : SameReading others first second := by
  cases reading with
  | template context views =>
    refine .template context (views.imp fun row twin view => ?_)
    exact ⟨view.name, view.mode, view.text, view.line.reshaped same⟩
  | fault moved => exact .fault (moved.reshaped same)

theorem Relaid.clips (relaid : Relaid text other above header inner below) :
    List.Forall₂ Clips (above ++ header :: (laidLines inner ++ below)) (splitLines other.toList) := by
  obtain ⟨marks, written⟩ := relaid.written
  have own : ∀ line ∈ above ++ header :: (keptLines inner ++ below), '\n' ∉ line := by
    rw [← relaid.outline.lines]
    exact fun line listed => (physicalLines_splitLines text.toList).plain listed
  have plain : ∀ line ∈ above ++ header :: (laidLines inner ++ below), '\n' ∉ line := by
    simp only [List.forall_mem_append, List.forall_mem_cons] at own ⊢
    refine ⟨own.1, own.2.1, List.forall_mem_map.mpr fun row listed => ?_, own.2.2.2⟩
    cases row with
    | kept line => exact own.2.2.1 line (mem_keptLines.mpr listed)
    | added line => exact (relaid.remarks line listed).2
  rw [written]
  exact splitLines_withReturns (by simp) plain marks

theorem Relaid.spread (relaid : Relaid text other above header inner below) (bare : '\r' ∉ text.toList) :
    ∃ clipped, clipped.map LaidLine.kept? = inner.map LaidLine.kept? ∧
      Spread (splitLines text.toList) (splitLines other.toList) above header clipped below := by
  have own : ∀ line ∈ above ++ header :: (keptLines inner ++ below), '\r' ∉ line := by
    rw [← relaid.outline.lines]
    exact fun line listed member => bare ((physicalLines_splitLines text.toList).characters listed member)
  simp only [List.forall_mem_append, List.forall_mem_cons] at own
  obtain ⟨bare_above, bare_header, bare_inner, bare_below⟩ := own
  obtain ⟨front, rest, split, clips_above, clips_rest⟩ := clips_append relaid.clips
  cases clips_rest with
  | @cons _ title _ rest clips_header clips_rest =>
    obtain ⟨middle, views, rfl, clips_middle, clips_below⟩ := clips_append clips_rest
    obtain ⟨clipped, rfl, same, added⟩ := clips_inner clips_middle bare_inner
    refine ⟨clipped, same, ?_⟩
    constructor
    case outline =>
      rw [keptLines_reshaped same]
      exact relaid.outline
    case ignored =>
      intro line listed
      have laid : line ∈ splitLines other.toList := by
        rw [split]
        have member : line ∈ laidLines clipped := List.mem_map_of_mem listed
        simp [member]
      obtain ⟨whole, given, clips⟩ := added line listed
      exact (isIgnorable_iff ((physicalLines_splitLines other.toList).plain laid)).mpr
        (clips.ignorable (relaid.remarks whole given).1)
    case lines =>
      rw [split, clips_header.bare bare_header, clips_bare clips_above bare_above, clips_bare clips_below bare_below]

end Endings

theorem read_relaid {text other : String} {above below : List Line} {header : Line} {inner : List LaidLine}
    (bare : '\r' ∉ text.toList) (relaid : Relaid text other above header inner below) :
    SameReading (laidOut above header inner below) (Template.read text) (Template.read other) ∧
      ∀ number place, StandsAt (laidOut above header inner below) number place →
        ∃ line, (number, line) ∈ numberedLines text.toList ∧ (place, line) ∈ numberedLines other.toList := by
  obtain ⟨clipped, same, spread⟩ := relaid.spread bare
  have reshaped := @laidOut_reshaped inner clipped above below header same
  refine ⟨spread.read.reshaped reshaped.symm, ?_⟩
  intro number place stands
  have named := (stands.reshaped reshaped).named
  rw [keptLines_laidOut, laidLines_laidOut, ← spread.outline.lines, ← spread.lines] at named
  exact named

def landing (origin : String) : String :=
  "#data\n$port = 'Os\\\n lo'\n@over = Ferry \x7b to = " ++ origin ++ "; \x7d\n#view\n"

def landingRows (origin : String) : List LaidLine :=
  [.kept "$port = 'Os\\".toList, .added "\t// by day\r".toList, .added [], .kept " lo'".toList, .added " //".toList,
    .kept ("@over = Ferry \x7b to = " ++ origin ++ "; \x7d").toList]

def landingAnew (origin : String) : String :=
  "#data\r\n$port = 'Os\\\n\t// by day\r\n\n lo'\n //\r\n@over = Ferry \x7b to = " ++ origin ++ "; \x7d\n#view\r\n"

def landingLaid (origin : String) : List LaidLine :=
  laidOut [] "#data".toList (landingRows origin) ["#view".toList, []]

theorem landing_relaid : ∀ origin ∈ ["$port", "port"],
    Relaid (landing origin) (landingAnew origin) [] "#data".toList (landingRows origin) ["#view".toList, []] := by
  intro origin listed
  constructor
  case outline =>
    constructor
    case lines => revert origin; decide +kernel
    case header => exact List.prefix_refl _
    case above => simp
    case region => revert origin; decide +kernel
    case titled => exact ⟨_, _, rfl, List.prefix_refl _⟩
  case remarks =>
    intro line added
    simp only [landingRows, List.mem_cons, LaidLine.added.injEq, reduceCtorEq, List.not_mem_nil, false_or,
      or_false] at added
    rcases added with rfl | rfl | rfl <;> decide
  case written =>
    refine ⟨[true, false, false, false, false, true, false, true], ?_⟩
    revert origin
    decide +kernel

theorem landing_read :
    SameReading (landingLaid "$port") (Template.read (landing "$port")) (Template.read (landingAnew "$port")) ∧
    SameReading (landingLaid "port") (Template.read (landing "port")) (Template.read (landingAnew "port")) ∧
    (Template.read (landingAnew "$port")).toOption.map (fun template => template.views.rows) =
      some [("default", ⟨.html, "", 8⟩)] ∧
    Template.read (landing "port") = .error ⟨.serviceBlock "over" "\x7b to = port; \x7d", some 4⟩ ∧
    Template.read (landingAnew "port") = .error ⟨.serviceBlock "over" "\x7b to = port; \x7d", some 7⟩ := by
  have right := landing_relaid "$port" (by simp)
  have wrong := landing_relaid "port" (by simp)
  refine ⟨(read_relaid (by decide +kernel) right).1, (read_relaid (by decide +kernel) wrong).1, ?_⟩
  decide +kernel

end WiredViews
