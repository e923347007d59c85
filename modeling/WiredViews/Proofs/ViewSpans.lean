import WiredViews.Proofs.RegionLines

-- The regions of a text by the places of its headers: every line from the first view header on is
-- in one view, and what stands above the data header only moves the views.
namespace WiredViews

def between (low high : Nat) (lines : List Line) : List Line :=
  (lines.take high).drop (low + 1)

def spans (starts : List Nat) (stop : Nat) : List (Nat × Nat) :=
  starts.zip (starts.tail ++ [stop])

def viewSpans (lines : List Line) : List (Nat × Nat) :=
  spans (lines.findIdxs isViewHead) lines.length

structure SpannedView (lines : List Line) (span : Nat × Nat) (row : String × View) : Prop where
  header : ∃ line, lines[span.1]? = some line ∧ IsViewHeader line row.1 row.2.mode
  line : row.2.line = span.1 + 1
  text : row.2.text.toList = joinLines (between span.1 span.2 lines)

structure Parted (lines : List Line) (template : Template) (data first : Nat) (others : List Nat) : Prop where
  dataHead : lines.findIdxs isDataHead = [data]
  viewHeads : lines.findIdxs isViewHead = first :: others
  below : data < first
  spanned : List.Forall₂ (SpannedView lines) (viewSpans lines) template.views.rows
  covered : (viewSpans lines).flatMap (fun span => List.range' span.1 (span.2 - span.1)) =
    List.range' first (lines.length - first)
  declared : declareTexts .empty (regionTexts (between data first lines)) = .ok template.context
  above : ∀ (other : String) (lead : List Line), (∀ line ∈ lead, Untagged line) →
    splitLines other.toList = lead ++ lines.drop data → ∃ twin, Template.read other = .ok twin ∧
      twin.context = template.context ∧ loweredViews data twin.views = loweredViews lead.length template.views

section Spans
variable {start stop : Nat} {starts : List Nat}

theorem spans_cons (start : Nat) (starts : List Nat) (stop : Nat) :
    spans (start :: starts) stop = (start, starts.headD stop) :: spans starts stop := by
  cases starts <;> rfl

theorem spans_cover (sorted : (start :: starts).Pairwise (· < ·)) (within : ∀ place ∈ start :: starts, place < stop) :
    (spans (start :: starts) stop).flatMap (fun span => List.range' span.1 (span.2 - span.1)) =
      List.range' start (stop - start) := by
  induction starts generalizing start with
  | nil => simp [spans]
  | cons next rest ih =>
    rw [List.pairwise_cons] at sorted
    rw [List.forall_mem_cons] at within
    have less : start < next := sorted.1 next (by simp)
    have inside : next < stop := within.2 next (by simp)
    have length : stop - start = (next - start) + (stop - next) := by omega
    rw [spans_cons, List.flatMap_cons, ih sorted.2 within.2, length, ← List.range'_append_1, List.headD_cons,
      Nat.add_sub_of_le (Nat.le_of_lt less)]

end Spans

structure SpannedBlock (lines : List Line) (span : Nat × Nat) (block : ViewBlock) : Prop where
  head : lines[span.1]? = some block.head.2
  number : block.head.1 = span.1 + 1
  body : block.body.map Prod.snd = between span.1 span.2 lines

theorem SpannedBlock.view {lines : List Line} {span : Nat × Nat} {block : ViewBlock} {row : String × View}
    (spanned : SpannedBlock lines span block) (view : ViewOf block row) : SpannedView lines span row where
  header := ⟨block.head.2, spanned.head, view.header⟩
  line := by rw [view.line, spanned.number]
  text := by rw [view.text, joinBody, spanned.body]

theorem forall₂_through {α β γ : Type} {first : α → β → Prop} {second : β → γ → Prop} {whole : α → γ → Prop}
    {items : List α} {others : List β} {last : List γ} (left : List.Forall₂ first items others)
    (right : List.Forall₂ second others last) (compose : ∀ {item other result}, first item other →
      second other result → whole item result) : List.Forall₂ whole items last := by
  induction left generalizing last with
  | nil =>
    cases right
    exact .nil
  | cons here _ ih =>
    cases right with
    | cons there further => exact .cons (compose here there) (ih further)

theorem take_place {front rest : List Line} {line : Line} {stop : Nat} (beyond : front.length < stop) :
    ((front ++ line :: rest).take stop).drop front.length =
      line :: ((front ++ line :: rest).take stop).drop (front.length + 1) := by
  obtain ⟨more, rfl⟩ := Nat.exists_eq_add_of_lt beyond
  rw [Nat.add_assoc, List.take_length_add_append, List.drop_left, ← List.drop_drop, List.drop_left]
  rfl

-- The induction is on the lines that are left; what was read before shifts all places alike.
theorem blocks_spanned (front rest : List Line) :
    (splitAtViews (numberLines (· + (front.length + 1)) rest)).1.map Prod.snd =
        ((front ++ rest).take ((rest.findIdxs isViewHead front.length).headD (front ++ rest).length)).drop front.length ∧
      List.Forall₂ (SpannedBlock (front ++ rest))
        (spans (rest.findIdxs isViewHead front.length) (front ++ rest).length)
        (splitAtViews (numberLines (· + (front.length + 1)) rest)).2 := by
  induction rest generalizing front with
  | nil => simp [numberLines, splitAtViews, spans]
  | cons line rest ih =>
    have later := ih (front ++ [line])
    rw [List.append_assoc, List.singleton_append, List.length_append, List.length_singleton] at later
    obtain ⟨before, blocks⟩ := later
    have place : (front ++ line :: rest)[front.length]? = some line := by simp
    rw [numberLines_cons, splitAtViews, List.findIdxs_cons]
    cases titled : isViewHead line with
    | true =>
      simp only [if_true]
      constructor
      · simp
      · rw [spans_cons]
        exact .cons ⟨place, rfl, before⟩ blocks
    | false =>
      simp only [Bool.false_eq_true, if_false]
      refine ⟨?_, blocks⟩
      have beyond : front.length < (rest.findIdxs isViewHead (front.length + 1)).headD (front ++ line :: rest).length := by
        cases places : rest.findIdxs isViewHead (front.length + 1) with
        | nil => simp
        | cons next others =>
          have least := List.ge_of_mem_findIdxs next (places ▸ List.mem_cons_self)
          rw [List.headD_cons]
          omega
      rw [take_place beyond, ← before]
      rfl

section Frames
variable {lines above region below : List Line} {header : Line}

theorem findIdxs_none {tag : List Char} {part : List Line} {start : Nat} (plain : ∀ line ∈ part, ¬ tag <+: line) :
    part.findIdxs (startsWith tag) start = [] := by
  rw [List.findIdxs_eq_nil_iff]
  intro line listed
  rw [Bool.eq_false_iff, ne_eq, startsWith_iff]
  exact plain line listed

theorem Framed.data_place (framed : Framed lines above header region below) :
    lines.findIdxs isDataHead = [above.length] := by
  obtain ⟨blanks, _, spelled⟩ := framed.header
  have tagged : isDataHead header = true := isDataHead_iff.mpr ⟨blanks, spelled.symm⟩
  have lead : above.findIdxs isDataHead = [] := findIdxs_none fun line listed => (framed.above line listed).data
  have rest : (region ++ below).findIdxs isDataHead (above.length + 1) = [] := by
    refine findIdxs_none fun line listed => ?_
    rcases List.mem_append.mp listed with declared | viewed
    · exact (framed.region line declared).data
    · exact framed.single line viewed
  rw [framed.lines, List.findIdxs_append, lead, List.findIdxs_cons, Nat.zero_add, if_pos tagged, rest]
  rfl

theorem Framed.view_places (framed : Framed lines above header region below) : ∃ others,
    below.findIdxs isViewHead (above.length + 1 + region.length) = (above.length + 1 + region.length) :: others ∧
      lines.findIdxs isViewHead = (above.length + 1 + region.length) :: others := by
  obtain ⟨blanks, _, spelled⟩ := framed.header
  have untitled : isViewHead header = false := Bool.eq_false_iff.mpr fun found =>
    not_view_of_data ⟨blanks, spelled.symm⟩ (isViewHead_iff.mp found)
  have lead : above.findIdxs isViewHead = [] := findIdxs_none fun line listed => (framed.above line listed).view
  have declared : region.findIdxs isViewHead (above.length + 1) = [] :=
    findIdxs_none fun line listed => (framed.region line listed).view
  have split : lines.findIdxs isViewHead = below.findIdxs isViewHead (above.length + 1 + region.length) := by
    rw [framed.lines, List.findIdxs_append, lead, List.findIdxs_cons, Nat.zero_add, untitled, List.findIdxs_append,
      declared]
    rfl
  obtain ⟨first, rest, rfl, titled⟩ := framed.titled
  rw [split, List.findIdxs_cons, if_pos (isViewHead_iff.mpr titled)]
  exact ⟨_, rfl, rfl⟩

theorem Framed.region_between (framed : Framed lines above header region below) :
    between above.length (above.length + 1 + region.length) lines = region := by
  rw [between, framed.lines, Nat.add_assoc, List.take_length_add_append, ← List.drop_drop, List.drop_left,
    Nat.add_comm 1, List.take_succ_cons, List.take_left]
  rfl

theorem Framed.from_header (framed : Framed lines above header region below) :
    lines.drop above.length = header :: (region ++ below) := by
  rw [framed.lines, List.drop_left]

theorem Framed.above_other (framed : Framed lines above header region below) {others lead : List Line}
    (untagged : ∀ line ∈ lead, Untagged line) (split : others = lead ++ lines.drop above.length) :
    Framed others lead header region below :=
  ⟨by rw [split, framed.from_header], framed.header, untagged, framed.region, framed.single, framed.titled⟩

theorem Framed.spanned (framed : Framed lines above header region below) :
    List.Forall₂ (SpannedBlock lines) (viewSpans lines) (viewBlocks (above.length + 2 + region.length) below) := by
  obtain ⟨others, places, heads⟩ := framed.view_places
  have blocks := (blocks_spanned (above ++ header :: region) below).2
  have length : (above ++ header :: region).length = above.length + 1 + region.length := by
    rw [List.length_append, List.length_cons]
    omega
  have number : above.length + 1 + region.length + 1 = above.length + 2 + region.length := by omega
  rw [List.append_assoc, List.cons_append, ← framed.lines, length, places, ← heads, number] at blocks
  exact blocks

end Frames

theorem read_parted {text : String} {template : Template} (read : Template.read text = .ok template) :
    ∃ data first others, Parted (splitLines text.toList) template data first others := by
  obtain ⟨above, header, region, below, framed⟩ := read_framed read
  obtain ⟨viewed, declared⟩ := framed.read_ok.mp read
  obtain ⟨others, _, heads⟩ := framed.view_places
  refine ⟨above.length, above.length + 1 + region.length, others, framed.data_place, heads, by omega, ?_, ?_, ?_, ?_⟩
  case refine_1 =>
    exact forall₂_through framed.spanned (readViews_exactly.mp viewed) fun block view => block.view view
  case refine_2 =>
    rw [viewSpans, heads]
    refine spans_cover (heads ▸ List.pairwise_findIdxs) ?_
    rw [← heads]
    intro place listed
    simpa using List.lt_add_of_mem_findIdxs place listed
  case refine_3 =>
    rw [framed.region_between]
    exact declared
  case refine_4 =>
    intro other lead untagged split
    exact framed.read_moved (framed.above_other untagged split) (by omega) read declared

def jetties : String :=
  "To the jetties\n#data\n$start = 'Oslo'\n#view(board)\n#view(pier)[text]\nFrom\nhere"

theorem jetties_parted : viewSpans (splitLines jetties.toList) = [(3, 4), (4, 7)] ∧
    ∃ template, Template.read jetties = .ok template ∧
      (∃ data first others, Parted (splitLines jetties.toList) template data first others) ∧
      (template.views.rows.map fun row => (row.1, row.2.text)) = [("board", ""), ("pier", "From\nhere")] := by
  refine ⟨by decide +kernel, ?_⟩
  have known : (Template.read jetties).toOption.map (fun template =>
      template.views.rows.map fun row => (row.1, row.2.text)) = some [("board", ""), ("pier", "From\nhere")] := by
    decide +kernel
  obtain ⟨template, read, views⟩ := read_known known
  exact ⟨template, read, read_parted read, views⟩

end WiredViews
