import WiredViews.Proofs.WellFormedTemplates

-- Texts with the data header above the views, whether the headers are right or not: what they are
-- refused for and where, and how that moves when there are more lines above.
namespace WiredViews

-- The data header is above the first view header. Neither of them need be right, and there may be
-- more data headers further down.
structure Outline (lines above : List Line) (header : Line) (region below : List Line) : Prop where
  lines : lines = above ++ header :: (region ++ below)
  header : dataTag.toList <+: header
  above : ∀ line ∈ above, Untagged line
  region : ∀ line ∈ region, ¬ viewTag.toList <+: line
  titled : ∃ first rest, below = first :: rest ∧ viewTag.toList <+: first

section Regions
variable {text : String} {lines above region below front back : List Line} {header line : Line} {error : SyntaxError}

theorem isIgnorable_hash (text : List Char) : isIgnorable ('#' :: text) = false :=
  rfl

theorem untagged_of_ignorable (ignored : isIgnorable line = true) : Untagged line := by
  constructor
  · intro tagged
    obtain ⟨rest, rfl⟩ := tagged
    have solid : isIgnorable (dataTag.toList ++ rest) = false := isIgnorable_hash _
    rw [solid] at ignored
    cases ignored
  · intro tagged
    obtain ⟨rest, rfl⟩ := tagged
    have solid : isIgnorable (viewTag.toList ++ rest) = false := isIgnorable_hash _
    rw [solid] at ignored
    cases ignored

theorem numbered_plain {start : Nat} {mark : List Char} (plain : ∀ line ∈ lines, ¬ mark <+: line) :
    (numberLines (· + start) lines).filter (fun row => startsWith mark row.2) = [] :=
  filter_plain fun row listed => plain row.2 (numbered_line listed)

theorem numbered_tagged {start : Nat} {mark : List Char} (plain : ∀ line ∈ front, ¬ mark <+: line)
    (tagged : mark <+: line) :
    (numberLines (· + start) (front ++ line :: back)).filter (fun row => startsWith mark row.2) =
      (start + front.length, line) ::
        (numberLines (· + (start + front.length + 1)) back).filter (fun row => startsWith mark row.2) := by
  have found : startsWith mark line = true := startsWith_iff.mpr tagged
  rw [numberLines_append, numberLines_cons, List.filter_append, numbered_plain plain, List.nil_append,
    List.filter_cons_of_pos (by exact found)]

theorem regions_second (header_tagged : dataTag.toList <+: header) (tagged : dataTag.toList <+: line)
    (above_plain : ∀ line ∈ above, ¬ dataTag.toList <+: line) (plain : ∀ line ∈ front, ¬ dataTag.toList <+: line) :
    Regions.ofLines (numberLines (· + 1) (above ++ header :: (front ++ line :: back))) =
      .error ⟨.secondDataRegion, some (above.length + 2 + front.length)⟩ := by
  have first : (numberLines (· + 1) (above ++ header :: (front ++ line :: back))).filter
      (fun row => isDataHead row.2) = _ := numbered_tagged above_plain header_tagged
  have second : (numberLines (· + (1 + above.length + 1)) (front ++ line :: back)).filter
      (fun row => startsWith dataTag.toList row.2) = _ := numbered_tagged plain tagged
  have place : 1 + above.length + 1 + front.length = above.length + 2 + front.length := by omega
  unfold Regions.ofLines
  rw [first, second, place]

theorem Outline.regions_header (outline : Outline lines above header region below)
    (single : ∀ line ∈ region ++ below, ¬ dataTag.toList <+: line)
    (wrong : ¬ isAllBlank (header.drop dataTag.length) = true) :
    Regions.ofLines (numberLines (· + 1) lines) =
      .error ⟨.dataHeader (String.ofList header), some (above.length + 1)⟩ := by
  obtain ⟨first, rest, rfl, titled⟩ := outline.titled
  have untitled : ∀ line ∈ above ++ header :: region, ¬ viewTag.toList <+: line := by
    simp only [List.forall_mem_append, List.forall_mem_cons]
    exact ⟨fun line listed => (outline.above line listed).view, not_view_of_data outline.header, outline.region⟩
  have data : (numberLines (· + 1) lines).filter (fun row => isDataHead row.2) = [(1 + above.length, header)] := by
    have heads : (numberLines (· + 1) (above ++ header :: (region ++ first :: rest))).filter
        (fun row => isDataHead row.2) = _ :=
      numbered_tagged (fun line listed => (outline.above line listed).data) outline.header
    rw [outline.lines, heads, numbered_plain single]
  have views : ∃ later, (numberLines (· + 1) lines).filter (fun row => isViewHead row.2) =
      (1 + (above ++ header :: region).length, first) :: later := by
    rw [outline.lines, ← List.cons_append, ← List.append_assoc]
    exact ⟨_, numbered_tagged untitled titled⟩
  obtain ⟨later, views⟩ := views
  have below : ¬ 1 + (above ++ header :: region).length < 1 + above.length := by simp
  have place : above.length + 1 = 1 + above.length := Nat.add_comm _ _
  rw [place]
  simp only [Regions.ofLines, data, views, below, wrong, if_false, Bool.false_eq_true]

theorem Outline.framed (outline : Outline lines above header region below)
    (single : ∀ line ∈ region ++ below, ¬ dataTag.toList <+: line)
    (right : isAllBlank (header.drop dataTag.length) = true) : Framed lines above header region below := by
  have length : dataTag.length = dataTag.toList.length := by decide
  obtain ⟨blanks, spelled⟩ := outline.header
  rw [List.forall_mem_append] at single
  constructor
  case lines => exact outline.lines
  case header =>
    rw [← spelled, length, List.drop_left] at right
    exact ⟨blanks, right, spelled.symm⟩
  case above => exact outline.above
  case region => exact fun line listed => ⟨single.1 line listed, outline.region line listed⟩
  case single => exact single.2
  case titled => exact outline.titled

theorem Outline.refused (outline : Outline (splitLines text.toList) above header region below)
    (parted : Regions.ofLines (numberLines (· + 1) (splitLines text.toList)) = .error error) :
    Template.read text = .error error := by
  have listed : header ∈ splitLines text.toList := by
    rw [outline.lines]
    simp
  have visible := (physicalLines_splitLines text.toList).visible listed outline.header
  rw [Template.read, if_neg (by simp [visible]), Template.readLines, numberedLines, parted]

end Regions

section Views
variable {views : Table String View} {count : Nat}

theorem loweredViews_insert (views : Table String View) (name : String) (view : View) (count : Nat) :
    loweredViews count (views.insert name view) = (loweredViews count views).insert name (view.lowered count) := by
  apply Table.eq_of_rows
  change (Table.insertRow name view views.rows).map (fun row => (row.1, row.2.lowered count)) =
    Table.insertRow name (view.lowered count) (views.rows.map fun row => (row.1, row.2.lowered count))
  induction views.rows with
  | nil => rfl
  | cons row rest ih =>
    rw [List.map_cons, Table.insertRow, Table.insertRow]
    split
    · rfl
    · rw [List.map_cons, ih]

theorem addView_lowered (views : Table String View) (block : ViewBlock) (count : Nat) :
    addView (loweredViews count views) (block.lowered count) = (addView views block).map (loweredViews count) := by
  have known : ∀ name, (loweredViews count views).contains name = views.contains name := by
    intro name
    rw [Table.contains, loweredViews, Table.get?_mapRows, Option.isSome_map]
    rfl
  have same : joinBody (block.lowered count).body = joinBody block.body := by
    simp [joinBody, ViewBlock.lowered, Function.comp_def]
  have head : (block.lowered count).head.2 = block.head.2 := rfl
  unfold addView
  rw [same, head]
  cases ViewHeader.read block.head.2 with
  | none => rfl
  | some header =>
    dsimp only
    cases header.renderMode with
    | error fault => rfl
    | ok mode =>
      dsimp only
      rw [known]
      cases views.contains header.name with
      | true => rfl
      | false =>
        simp only [Bool.false_eq_true, if_false, Except.map, loweredViews_insert]
        rfl

theorem readViews_both (views : Table String View) (blocks : List ViewBlock) (count : Nat) :
    (∃ table, readViews views blocks = .ok table ∧
      readViews (loweredViews count views) (blocks.map fun block => block.lowered count) =
        .ok (loweredViews count table)) ∨
    ∃ fault, ∃ block ∈ blocks, readViews views blocks = .error ⟨fault, some block.head.1⟩ ∧
      readViews (loweredViews count views) (blocks.map fun block => block.lowered count) =
        .error ⟨fault, some (block.head.1 + count)⟩ := by
  induction blocks generalizing views with
  | nil => exact Or.inl ⟨views, rfl, rfl⟩
  | cons block rest ih =>
    rw [List.map_cons, readViews, readViews, addView_lowered]
    cases addView views block with
    | error fault => exact Or.inr ⟨fault, block, by simp, rfl, rfl⟩
    | ok more =>
      rcases ih more with read | ⟨fault, bad, listed, failed⟩
      · exact Or.inl read
      · exact Or.inr ⟨fault, bad, List.mem_cons_of_mem _ listed, failed⟩

theorem viewBlocks_place {start : Nat} {below : List Line} {block : ViewBlock} (listed : block ∈ viewBlocks start below) :
    ∃ offset, offset < below.length ∧ block.head.1 = start + offset := by
  have head : block.head ∈ (viewBlocks start below).map ViewBlock.head := List.mem_map_of_mem listed
  rw [viewBlocks, splitAtViews_heads] at head
  obtain ⟨offset, within, same⟩ := List.mem_mapIdx.mp (List.mem_filter.mp head).1
  refine ⟨offset, within, ?_⟩
  rw [← same]
  exact Nat.add_comm offset start

end Views

section Declarations
variable {ν : Type}

theorem declareAll_both (context : Context) (lines : List (LogicalLine ν)) (left right : ν → Nat) :
    (∃ whole, declareAll context (lines.map (LogicalLine.renumber left)) = .ok whole ∧
      declareAll context (lines.map (LogicalLine.renumber right)) = .ok whole) ∨
    ∃ fault, ∃ line ∈ lines,
      declareAll context (lines.map (LogicalLine.renumber left)) = .error ⟨fault, some (left line.number)⟩ ∧
      declareAll context (lines.map (LogicalLine.renumber right)) = .error ⟨fault, some (right line.number)⟩ := by
  induction lines generalizing context with
  | nil => exact Or.inl ⟨context, rfl, rfl⟩
  | cons line rest ih =>
    simp only [List.map_cons, declareAll, LogicalLine.renumber]
    cases declareText context line.text with
    | error fault => exact Or.inr ⟨fault, line, by simp, rfl, rfl⟩
    | ok more =>
      rcases ih more with declared | ⟨fault, bad, listed, failed⟩
      · exact Or.inl declared
      · exact Or.inr ⟨fault, bad, List.mem_cons_of_mem _ listed, failed⟩

end Declarations
end WiredViews
