import WiredViews.Proofs.TemplateGrammar

-- The regions of a text said of its lines, and what is read from each of them by itself. Numbers
-- of lines matter to where a view stands and to nothing else.
namespace WiredViews

structure Untagged (line : Line) : Prop where
  data : ¬ dataTag.toList <+: line
  view : ¬ viewTag.toList <+: line

instance (line : Line) : Decidable (Untagged line) :=
  decidable_of_iff (¬ dataTag.toList <+: line ∧ ¬ viewTag.toList <+: line)
    ⟨fun given => ⟨given.1, given.2⟩, fun untagged => ⟨untagged.data, untagged.view⟩⟩

structure Framed (lines above : List Line) (header : Line) (region below : List Line) : Prop where
  lines : lines = above ++ header :: (region ++ below)
  header : ∃ blanks, isAllBlank blanks = true ∧ header = dataTag.toList ++ blanks
  above : ∀ line ∈ above, Untagged line
  region : ∀ line ∈ region, Untagged line
  single : ∀ line ∈ below, ¬ dataTag.toList <+: line
  titled : ∃ first rest, below = first :: rest ∧ viewTag.toList <+: first

def ViewsHeaded (below : List Line) : Prop :=
  ∃ names : List String, List.Forall₂ (fun line name => ∃ mode, IsViewHeader line name mode)
    (below.filter fun line => viewTag.toList <+: line) names ∧ names.Nodup

structure ViewOf (block : ViewBlock) (row : String × View) : Prop where
  header : IsViewHeader block.head.2 row.1 row.2.mode
  text : row.2.text.toList = joinBody block.body
  line : row.2.line = block.head.1

def viewBlocks (start : Nat) (below : List Line) : List ViewBlock :=
  (splitAtViews (numberLines (· + start) below)).2

def regionTexts (region : List Line) : List (List Char) :=
  (assemble (region.map fun line => ((), line))).map LogicalLine.text

def declareTexts (context : Context) (texts : List (List Char)) : Except SyntaxFault Context :=
  texts.foldlM declareText context

def View.lowered (view : View) (count : Nat) : View :=
  { view with line := view.line + count }

def loweredViews (count : Nat) (views : Table String View) : Table String View :=
  views.mapRows fun _ view => view.lowered count

section Blocks
variable {rows : List NumberedLine}

theorem splitAtViews_flatten (rows : List NumberedLine) :
    (splitAtViews rows).1 ++ (splitAtViews rows).2.flatMap (fun block => block.head :: block.body) = rows := by
  induction rows with
  | nil => rfl
  | cons row rest ih =>
    rw [splitAtViews]
    cases isViewHead row.2 with
    | true => simpa using ih
    | false => simpa using ih

theorem splitAtViews_bodies (rows : List NumberedLine) :
    (∀ row ∈ (splitAtViews rows).1, ¬ viewTag.toList <+: row.2) ∧
      ∀ block ∈ (splitAtViews rows).2, ∀ row ∈ block.body, ¬ viewTag.toList <+: row.2 := by
  induction rows with
  | nil => simp [splitAtViews]
  | cons row rest ih =>
    rw [splitAtViews]
    cases titled : isViewHead row.2 with
    | true => exact ⟨by simp, List.forall_mem_cons.mpr ih⟩
    | false =>
      have plain : ¬ viewTag.toList <+: row.2 := fun found => by simp [isViewHead_iff.mpr found] at titled
      exact ⟨List.forall_mem_cons.mpr ⟨plain, ih.1⟩, ih.2⟩

theorem viewBlocks_flatten {start : Nat} {below : List Line}
    (titled : ∃ first rest, below = first :: rest ∧ viewTag.toList <+: first) :
    (viewBlocks start below).flatMap (fun block => block.head :: block.body) = numberLines (· + start) below := by
  obtain ⟨first, rest, rfl, tagged⟩ := titled
  have whole := splitAtViews_flatten (numberLines (· + start) (first :: rest))
  have nothing : (splitAtViews (numberLines (· + start) (first :: rest))).1 = [] := by
    rw [numberLines_cons]
    exact splitAtViews_titled tagged
  rwa [nothing] at whole

theorem viewBlocks_heads (start : Nat) (below : List Line) :
    (viewBlocks start below).map (fun block => block.head.2) = below.filter fun line => viewTag.toList <+: line := by
  have heads := congrArg (List.map Prod.snd) (splitAtViews_heads (numberLines (· + start) below))
  rw [List.map_map] at heads
  rw [← numberLines_texts start below, List.filter_map, numberLines_texts]
  exact heads

def ViewBlock.lowered (block : ViewBlock) (count : Nat) : ViewBlock :=
  ⟨(block.head.1 + count, block.head.2), block.body.map fun row => (row.1 + count, row.2)⟩

theorem splitAtViews_lowered (rows : List NumberedLine) (count : Nat) :
    splitAtViews (rows.map fun row => (row.1 + count, row.2)) =
      ((splitAtViews rows).1.map fun row => (row.1 + count, row.2),
        (splitAtViews rows).2.map fun block => block.lowered count) := by
  induction rows with
  | nil => rfl
  | cons row rest ih =>
    rw [List.map_cons, splitAtViews, splitAtViews, ih]
    cases isViewHead row.2 <;> rfl

theorem numberLines_lowered (start count : Nat) (lines : List Line) : numberLines (· + (start + count)) lines =
    (numberLines (· + start) lines).map fun row => (row.1 + count, row.2) := by
  induction lines generalizing start with
  | nil => rfl
  | cons line rest ih => rw [numberLines_cons, numberLines_cons, List.map_cons, ← ih, Nat.add_right_comm]

theorem viewBlocks_lowered (start count : Nat) (below : List Line) :
    viewBlocks (start + count) below = (viewBlocks start below).map fun block => block.lowered count := by
  rw [viewBlocks, numberLines_lowered, splitAtViews_lowered]
  rfl

end Blocks

section Views
variable {views table other : Table String View} {blocks : List ViewBlock}

theorem readViews_rows : readViews views blocks = .ok table ↔
    ∃ rows, List.Forall₂ ViewOf blocks rows ∧ table.rows = views.rows ++ rows := by
  induction blocks generalizing views with
  | nil =>
    simp only [readViews, Except.ok.injEq, List.forall₂_nil_left_iff, exists_eq_left, List.append_nil]
    constructor
    · rintro rfl
      rfl
    · exact fun same => (Table.eq_of_rows same).symm
  | cons block rest ih =>
    rw [readViews]
    constructor
    · intro read
      split at read
      · cases read
      · rename_i more added
        obtain ⟨name, mode, header, fresh, rfl⟩ := addView_exact.mp added
        obtain ⟨rows, viewed, listed⟩ := ih.mp read
        have grown : (views.insert name ⟨mode, String.ofList (joinBody block.body), block.head.1⟩).rows =
            views.rows ++ [(name, ⟨mode, String.ofList (joinBody block.body), block.head.1⟩)] :=
          Table.insertRow_of_absent fresh
        rw [grown, List.append_assoc] at listed
        exact ⟨_ :: rows, .cons ⟨header, String.toList_ofList, rfl⟩ viewed, listed⟩
    · intro given
      obtain ⟨rows, viewed, listed⟩ := given
      cases viewed with
      | @cons _ row _ rows here viewed =>
        have distinct := table.keys_distinct
        rw [listed, List.map_append, List.nodup_append] at distinct
        have fresh : row.1 ∉ views.keys := by
          intro held
          exact distinct.2.2 row.1 held row.1 (by simp) rfl
        have added : addView views block = .ok (views.insert row.1 row.2) := by
          refine addView_exact.mpr ⟨row.1, row.2.mode, here.header, fresh, ?_⟩
          rw [← here.text, String.ofList_toList, ← here.line]
        have grown : (views.insert row.1 row.2).rows = views.rows ++ [row] := Table.insertRow_of_absent fresh
        rw [added]
        refine ih.mpr ⟨rows, viewed, ?_⟩
        rw [grown, List.append_assoc]
        exact listed

theorem readViews_exactly : readViews ∅ blocks = .ok table ↔ List.Forall₂ ViewOf blocks table.rows := by
  rw [readViews_rows]
  constructor
  · rintro ⟨rows, viewed, listed⟩
    rw [listed]
    exact viewed
  · exact fun viewed => ⟨_, viewed, rfl⟩

theorem readViews_headed {start : Nat} {below : List Line} :
    (∃ table, readViews ∅ (viewBlocks start below) = .ok table) ↔ ViewsHeaded below := by
  have apart : ∀ name, name ∉ (∅ : Table String View).keys := fun name listed => by simp [Table.mem_keys] at listed
  rw [readViews_exact, ViewsHeaded, ← viewBlocks_heads start]
  simp only [List.forall₂_map_left_iff]
  constructor
  · rintro ⟨names, titles, distinct, _⟩
    exact ⟨names, titles, distinct⟩
  · rintro ⟨names, titles, distinct⟩
    exact ⟨names, titles, distinct, fun name _ => apart name⟩

theorem readViews_lowered {start count : Nat} {below : List Line}
    (viewed : readViews ∅ (viewBlocks start below) = .ok table) :
    readViews ∅ (viewBlocks (start + count) below) = .ok (loweredViews count table) := by
  rw [readViews_exactly] at viewed ⊢
  rw [viewBlocks_lowered, loweredViews, Table.mapRows, List.forall₂_map_left_iff, List.forall₂_map_right_iff]
  refine viewed.imp fun block row view => ⟨view.header, ?_, ?_⟩
  · rw [View.lowered, view.text]
    simp [joinBody, ViewBlock.lowered, Function.comp_def]
  · rw [View.lowered, view.line]
    rfl

theorem readViews_moved {start place more fewer : Nat} {below : List Line} (shift : start + more = place + fewer)
    (viewed : readViews ∅ (viewBlocks start below) = .ok table) :
    ∃ moved, readViews ∅ (viewBlocks place below) = .ok moved ∧ loweredViews fewer moved = loweredViews more table := by
  obtain ⟨moved, reviewed⟩ := (@readViews_headed place below).mpr (readViews_headed.mp ⟨table, viewed⟩)
  refine ⟨moved, reviewed, ?_⟩
  have down := @readViews_lowered _ _ more _ viewed
  have up := @readViews_lowered _ _ fewer _ reviewed
  rw [← shift, down] at up
  exact (Except.ok.inj up).symm

end Views

section Declarations
variable {ν μ : Type}

def LogicalLine.renumber (numberOf : ν → μ) (line : LogicalLine ν) : LogicalLine μ :=
  ⟨numberOf line.number, line.text⟩

theorem assembleFrom_renumber (numberOf : ν → μ) (pending : Option (Unfinished ν)) (rows : List (ν × Line)) :
    assembleFrom (pending.map fun open_ => ⟨numberOf open_.start, open_.text⟩)
        (rows.map fun row => (numberOf row.1, row.2)) =
      (assembleFrom pending rows).map (LogicalLine.renumber numberOf) := by
  induction rows generalizing pending with
  | nil =>
    cases pending with
    | none => rfl
    | some open_ =>
      simp only [Option.map_some, List.map_nil, assembleFrom]
      split <;> rfl
  | cons row rest ih =>
    rw [List.map_cons]
    cases ignored : isIgnorable row.2 with
    | true =>
      have reignored : isIgnorable (numberOf row.1, row.2).2 = true := ignored
      rw [assembleFrom_ignored ignored, assembleFrom_ignored reignored, ih]
    | false =>
      cases started : pending.getD ⟨row.1, []⟩ with
      | mk start sofar =>
        have restarted : (pending.map fun open_ => (⟨numberOf open_.start, open_.text⟩ : Unfinished μ)).getD
            ⟨numberOf row.1, []⟩ = ⟨numberOf start, sofar⟩ := by
          cases pending <;> cases started <;> rfl
        have solid : isIgnorable (numberOf row.1, row.2).2 = false := ignored
        rcases continues_or_closes row.2 with ⟨piece, continues⟩ | ⟨piece, closes⟩
        · rw [assembleFrom_continues ignored continues started, assembleFrom_continues solid continues restarted, ← ih]
          rfl
        · rw [assembleFrom_closes ignored closes started, assembleFrom_closes solid closes restarted, List.map_cons,
            ← ih]
          rfl

theorem assemble_texts (rows : List (ν × Line)) :
    (assemble rows).map LogicalLine.text = regionTexts (rows.map Prod.snd) := by
  have renumbered : assemble (rows.map fun row => ((), row.2)) =
      (assemble rows).map (LogicalLine.renumber fun _ => ()) := assembleFrom_renumber (fun _ => ()) none rows
  have bare : (rows.map Prod.snd).map (fun line => ((), line)) = rows.map fun row => ((), row.2) := by simp
  rw [regionTexts, bare, renumbered, List.map_map]
  rfl

theorem foldlM_cons_ok {α β ε : Type} {step : α → β → Except ε α} {start result : α} {item : β} {rest : List β} :
    (item :: rest).foldlM step start = .ok result ↔
      ∃ next, step start item = .ok next ∧ rest.foldlM step next = .ok result := by
  rw [List.foldlM_cons]
  cases step start item <;> simp [bind, Except.bind]

theorem foldlM_append_ok {α β ε : Type} {step : α → β → Except ε α} {start result : α} {items rest : List β} :
    (items ++ rest).foldlM step start = .ok result ↔
      ∃ next, items.foldlM step start = .ok next ∧ rest.foldlM step next = .ok result := by
  rw [List.foldlM_append]
  cases items.foldlM step start <;> simp [bind, Except.bind]

theorem declareTexts_nil {context whole : Context} : declareTexts context [] = .ok whole ↔ context = whole := by
  simp [declareTexts, pure, Except.pure]

theorem declareAll_texts {context whole : Context} {lines : List (LogicalLine Nat)} :
    declareAll context lines = .ok whole ↔ declareTexts context (lines.map LogicalLine.text) = .ok whole := by
  induction lines generalizing context with
  | nil => rw [declareAll, List.map_nil, declareTexts_nil, Except.ok.injEq]
  | cons line rest ih =>
    rw [declareAll, List.map_cons, declareTexts, foldlM_cons_ok]
    cases declareText context line.text with
    | error fault => simp
    | ok more => simpa [declareTexts] using ih

theorem declareText_ok {context more : Context} {text : List Char} : declareText context text = .ok more ↔
    ∃ declaration, IsDeclaration text declaration ∧ context.declare declaration = .ok more := by
  unfold declareText
  simp only [← declaration_exact]
  cases Declaration.read text <;> simp

theorem declareTexts_ok {context whole : Context} {text : List Char} {rest : List (List Char)} :
    declareTexts context (text :: rest) = .ok whole ↔ ∃ declaration more, IsDeclaration text declaration ∧
      context.declare declaration = .ok more ∧ declareTexts more rest = .ok whole := by
  simp only [declareTexts, foldlM_cons_ok, declareText_ok]
  constructor
  · rintro ⟨more, ⟨declaration, spelled, here⟩, declared⟩
    exact ⟨declaration, more, spelled, here, declared⟩
  · rintro ⟨declaration, more, spelled, here, declared⟩
    exact ⟨more, ⟨declaration, spelled, here⟩, declared⟩

end Declarations

section Frames
variable {text : String} {lines above region below : List Line} {header : Line}

theorem Framed.layout (framed : Framed lines above header region below) :
    Layout (numberLines (· + 1) lines) (numberLines (· + 1) above) (above.length + 1, header)
      (numberLines (· + (above.length + 2)) region)
      (numberLines (· + (above.length + 2 + region.length)) below) := by
  constructor
  case rows =>
    rw [framed.lines, numberLines_append, numberLines_cons, numberLines_append, Nat.add_comm 1]
  case header => exact framed.header
  case only =>
    simp only [List.forall_mem_append]
    refine ⟨?_, ?_, ?_⟩ <;> intro row listed
    · exact (framed.above row.2 (numbered_line listed)).data
    · exact (framed.region row.2 (numbered_line listed)).data
    · exact framed.single row.2 (numbered_line listed)
  case untitled =>
    rw [List.forall_mem_append]
    constructor <;> intro row listed
    · exact (framed.above row.2 (numbered_line listed)).view
    · exact (framed.region row.2 (numbered_line listed)).view
  case titled =>
    obtain ⟨first, rest, rfl, tagged⟩ := framed.titled
    exact ⟨_, _, numberLines_cons, tagged⟩

theorem Layout.framed {before declarations views : List NumberedLine} {head : NumberedLine}
    (layout : Layout (numberLines (· + 1) lines) before head declarations views) :
    Framed lines (before.map Prod.snd) head.2 (declarations.map Prod.snd) (views.map Prod.snd) := by
  have only := layout.only
  have untitled := layout.untitled
  simp only [List.forall_mem_append] at only untitled
  constructor
  case lines => rw [← numberLines_texts 1 lines, layout.rows, List.map_append, List.map_cons, List.map_append]
  case header => exact layout.header
  case above =>
    rw [List.forall_mem_map]
    exact fun row listed => ⟨only.1 row listed, untitled.1 row listed⟩
  case region =>
    rw [List.forall_mem_map]
    exact fun row listed => ⟨only.2.1 row listed, untitled.2 row listed⟩
  case single =>
    rw [List.forall_mem_map]
    exact only.2.2
  case titled =>
    obtain ⟨first, rest, rfl, tagged⟩ := layout.titled
    exact ⟨_, _, List.map_cons, tagged⟩

theorem Framed.plain (framed : Framed (splitLines text.toList) above header region below) :
    (∀ line ∈ above, '\n' ∉ line) ∧ '\n' ∉ header ∧ (∀ line ∈ region, '\n' ∉ line) ∧ ∀ line ∈ below, '\n' ∉ line := by
  have around : ∀ line ∈ above ++ header :: (region ++ below), '\n' ∉ line := by
    rw [← framed.lines]
    exact fun line listed => (physicalLines_splitLines text.toList).plain listed
  simpa only [List.forall_mem_append, List.forall_mem_cons] using around

-- The views are read first, then the declarations; what stands above is not looked at.
theorem Framed.read (framed : Framed (splitLines text.toList) above header region below) :
    Template.read text = (readViews ∅ (viewBlocks (above.length + 2 + region.length) below)).bind fun views =>
      (declareAll .empty (assemble (numberLines (· + (above.length + 2)) region))).map fun context =>
        ⟨views, context⟩ := by
  have parted := (regions_exact numbered_ordered).mpr ⟨_, _, _, _, framed.layout, rfl⟩
  have visible : isAllBlank text.toList = false := by
    obtain ⟨blanks, _, spelled⟩ := framed.header
    have listed : header ∈ splitLines text.toList := by
      rw [framed.lines]
      simp
    exact (physicalLines_splitLines text.toList).visible listed ⟨blanks, spelled.symm⟩
  rw [Template.read, if_neg (by simp [visible]), Template.readLines, numberedLines, parted]
  dsimp only
  rw [← viewBlocks]
  cases readViews ∅ (viewBlocks (above.length + 2 + region.length) below) with
  | error error => rfl
  | ok views =>
    dsimp only [Except.bind]
    cases declareAll .empty (assemble (numberLines (· + (above.length + 2)) region)) with
    | error error => rfl
    | ok context => rfl

theorem Framed.read_ok (framed : Framed (splitLines text.toList) above header region below) {template : Template} :
    Template.read text = .ok template ↔
      readViews ∅ (viewBlocks (above.length + 2 + region.length) below) = .ok template.views ∧
        declareTexts .empty (regionTexts region) = .ok template.context := by
  have texts := assemble_texts (numberLines (· + (above.length + 2)) region)
  rw [numberLines_texts] at texts
  rw [framed.read, ← texts, ← declareAll_texts]
  cases readViews ∅ (viewBlocks (above.length + 2 + region.length) below) with
  | error error => simp [Except.bind]
  | ok views =>
    cases declareAll .empty (assemble (numberLines (· + (above.length + 2)) region)) with
    | error error => simp [Except.bind, Except.map]
    | ok context =>
      obtain ⟨others, given⟩ := template
      simp [Except.bind, Except.map]

theorem read_known {α : Type} {what : Template → α} {value : α}
    (known : (Template.read text).toOption.map what = some value) :
    ∃ template, Template.read text = .ok template ∧ what template = value := by
  cases read : Template.read text with
  | error error =>
    rw [read] at known
    cases known
  | ok template =>
    rw [read] at known
    exact ⟨template, rfl, Option.some.inj known⟩

theorem read_framed {template : Template} (read : Template.read text = .ok template) :
    ∃ above header region below, Framed (splitLines text.toList) above header region below := by
  obtain ⟨before, header, declarations, views, layout, _⟩ := readLines_ok.mp (WiredViews.read_ok.mp read)
  exact ⟨_, _, _, _, layout.framed⟩

theorem Framed.read_moved {other : String} {lead others : List Line} {head : Line} {template : Template}
    {context : Context} {more fewer : Nat} (framed : Framed (splitLines text.toList) above header region below)
    (reframed : Framed (splitLines other.toList) lead head others below)
    (shift : above.length + region.length + more = lead.length + others.length + fewer)
    (read : Template.read text = .ok template) (declared : declareTexts .empty (regionTexts others) = .ok context) :
    ∃ twin, Template.read other = .ok twin ∧ twin.context = context ∧
      loweredViews fewer twin.views = loweredViews more template.views := by
  have places : above.length + 2 + region.length + more = lead.length + 2 + others.length + fewer := by omega
  obtain ⟨viewed, _⟩ := framed.read_ok.mp read
  obtain ⟨moved, reviewed, same⟩ := readViews_moved places viewed
  exact ⟨⟨moved, context⟩, reframed.read_ok.mpr ⟨reviewed, declared⟩, rfl, same⟩

end Frames
end WiredViews
