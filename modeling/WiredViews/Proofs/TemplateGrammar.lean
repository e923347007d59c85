import WiredViews.Proofs.LogicalRuns
import WiredViews.Proofs.PhysicalLines
import WiredViews.Proofs.RegionGrammar
import WiredViews.ReadTemplate

namespace WiredViews

-- A variable can be copied if it was known before or has been defined further up,
-- whatever becomes of it later.
def CopiesDefined (known : List String) (declarations : List Declaration) : Prop :=
  ∀ earlier name target later, declarations = earlier ++ .assign name (.copy target) :: later →
    target ∈ known ∨ ∃ assignment, Declaration.assign target assignment ∈ earlier

-- Only the order of the numbers matters: they are those of the lines.
inductive IsTemplate (rows : List NumberedLine) : Prop where
  | template {before declarations views : List NumberedLine} {header : NumberedLine} {names : List String}
      {logical : List (LogicalLine Nat)} {meanings : List Declaration}
      (layout : Layout rows before header declarations views)
      (titles : List.Forall₂ NamesView (views.filter fun row => viewTag.toList <+: row.2) names)
      (distinct : names.Nodup)
      (runs : Runs (declarations.filter fun row => ¬ Ignorable row.2) logical)
      (declared : List.Forall₂ (fun line declaration => IsDeclaration line.text declaration) logical meanings)
      (copies : CopiesDefined [] meanings) : IsTemplate rows

def IsTemplateText (text : List Char) : Prop :=
  ∃ lines, PhysicalLines text lines ∧ IsTemplate (numberLines (· + 1) lines)

section Declaring
variable {context : Context} {declaration : Declaration}

theorem copies_first {known : List String} {rest : List Declaration}
    (copies : CopiesDefined known (declaration :: rest)) :
    ∀ name target, declaration = .assign name (.copy target) → target ∈ known := by
  intro name target same
  have first := copies [] name target rest (by rw [same]; rfl)
  simpa using first

theorem copies_cons {known more : List String} {rest : List Declaration}
    (grown : ∀ name, name ∈ more ↔ (∃ assignment, declaration = .assign name assignment) ∨ name ∈ known) :
    CopiesDefined known (declaration :: rest) ↔
      (∀ name target, declaration = .assign name (.copy target) → target ∈ known) ∧ CopiesDefined more rest := by
  constructor
  · intro copies
    constructor
    · exact copies_first copies
    · intro earlier name target later split
      have further := copies (declaration :: earlier) name target later (by rw [split]; rfl)
      rcases further with before | ⟨assignment, listed⟩
      · exact Or.inl ((grown target).mpr (Or.inr before))
      · rcases List.mem_cons.mp listed with same | above
        · exact Or.inl ((grown target).mpr (Or.inl ⟨assignment, same.symm⟩))
        · exact Or.inr ⟨assignment, above⟩
  · rintro ⟨here, further⟩ earlier name target later split
    cases earlier with
    | nil =>
      cases split
      exact Or.inl (here name target rfl)
    | cons first earlier =>
      cases split
      rcases further earlier name target later rfl with before | ⟨assignment, above⟩
      · rcases (grown target).mp before with ⟨assignment, same⟩ | before
        · exact Or.inr ⟨assignment, by simp [same]⟩
        · exact Or.inl before
      · exact Or.inr ⟨assignment, List.mem_cons_of_mem _ above⟩

theorem declare_exact : (∃ more, context.declare declaration = .ok more) ↔
    ∀ name target, declaration = .assign name (.copy target) → target ∈ context.bindings.keys := by
  cases declaration with
  | serve name service => simp [Context.declare]
  | assign name assignment =>
    cases assignment with
    | literal value => simp [Context.declare]
    | reference service field => simp [Context.declare]
    | copy target =>
      simp only [Declaration.assign.injEq, Assignment.copy.injEq]
      constructor
      · rintro ⟨more, declared⟩ _ _ ⟨_, rfl⟩
        rw [Table.mem_keys]
        simp only [Context.declare] at declared
        split at declared
        · cases declared
        · rename_i meaning held
          exact ⟨meaning, held⟩
      · intro known
        obtain ⟨meaning, held⟩ := Table.mem_keys.mp (known name target ⟨rfl, rfl⟩)
        exact ⟨context.assign name meaning, by simp only [Context.declare, held]⟩

theorem declare_grows {more : Context} (declared : context.declare declaration = .ok more) (name : String) :
    name ∈ more.bindings.keys ↔
      (∃ assignment, declaration = .assign name assignment) ∨ name ∈ context.bindings.keys := by
  cases declaration with
  | serve other service =>
    cases declared
    simp [Context.serve]
  | assign other assignment =>
    have grown : ∀ meaning, name ∈ (context.assign other meaning).bindings.keys ↔
        (∃ given, Declaration.assign other assignment = .assign name given) ∨ name ∈ context.bindings.keys := by
      intro meaning
      rw [Context.assign, Table.mem_keys_insert]
      simp [eq_comm]
    cases assignment with
    | literal value =>
      cases declared
      exact grown _
    | reference service field =>
      cases declared
      exact grown _
    | copy target =>
      simp only [Context.declare] at declared
      split at declared
      · cases declared
      · cases declared
        exact grown _

theorem declareAll_exact {logical : List (LogicalLine Nat)} :
    (∃ whole, declareAll context logical = .ok whole) ↔ ∃ meanings : List Declaration,
      List.Forall₂ (fun line declaration => IsDeclaration line.text declaration) logical meanings ∧
        CopiesDefined context.bindings.keys meanings := by
  induction logical generalizing context with
  | nil =>
    simp only [declareAll, List.forall₂_nil_left_iff, exists_eq_left, Except.ok.injEq, exists_eq', true_iff]
    intro earlier name target later split
    simp at split
  | cons line rest ih =>
    constructor
    · intro facts
      obtain ⟨whole, all⟩ := facts
      simp only [declareAll, declareText] at all
      cases read : Declaration.read line.text with
      | error fault =>
        rw [read] at all
        cases all
      | ok declaration =>
        rw [read] at all
        dsimp only at all
        split at all
        · cases all
        · rename_i more declared
          obtain ⟨meanings, given, copies⟩ := ih.mp ⟨whole, all⟩
          exact ⟨declaration :: meanings, .cons (declaration_exact.mp read) given,
            (copies_cons (declare_grows declared)).mpr ⟨declare_exact.mp ⟨more, declared⟩, copies⟩⟩
    · intro facts
      obtain ⟨_, given, copies⟩ := facts
      cases given with
      | @cons _ declaration _ meanings here given =>
        have read := declaration_exact.mpr here
        obtain ⟨more, declared⟩ := declare_exact.mpr (copies_first copies)
        obtain ⟨whole, all⟩ := ih.mpr ⟨meanings, given, ((copies_cons (declare_grows declared)).mp copies).2⟩
        exact ⟨whole, by simp only [declareAll, declareText, read, declared, all]⟩

end Declaring

section Numbers
variable {lines : List Line}

theorem numbered_ordered : (numberLines (· + 1) lines).Pairwise fun first second => first.1 < second.1 := by
  unfold numberLines
  rw [List.pairwise_iff_getElem]
  intro low high lowBound highBound less
  simp only [List.getElem_mapIdx]
  omega

theorem numbered_line {numberOf : Nat → Nat} {row : NumberedLine} (listed : row ∈ numberLines numberOf lines) :
    row.2 ∈ lines := by
  obtain ⟨offset, bound, rfl⟩ := List.mem_mapIdx.mp listed
  exact List.getElem_mem bound

end Numbers

theorem filter_ignorable {rows : List NumberedLine} (plain : ∀ row ∈ rows, '\n' ∉ row.2) :
    (rows.filter fun row => ¬ Ignorable row.2) = rows.filter fun row => !isIgnorable row.2 := by
  refine List.filter_congr fun row listed => ?_
  rw [Bool.eq_iff_iff, decide_eq_true_eq, ← isIgnorable_iff (plain row listed)]
  simp

theorem readLines_ok {lines : List Line} {template : Template} :
    Template.readLines (numberLines (· + 1) lines) = .ok template ↔ ∃ before header declarations views,
      Layout (numberLines (· + 1) lines) before header declarations views ∧
        readViews ∅ (splitAtViews views).2 = .ok template.views ∧
        declareAll .empty (assemble declarations) = .ok template.context := by
  constructor
  · intro read
    unfold Template.readLines at read
    split at read
    · cases read
    · rename_i regions parted
      obtain ⟨before, header, declarations, views, layout, rfl⟩ := (regions_exact numbered_ordered).mp parted
      split at read
      · cases read
      · rename_i table viewed
        split at read
        · cases read
        · rename_i context all
          cases read
          exact ⟨before, header, declarations, views, layout, viewed, all⟩
  · intro given
    obtain ⟨before, header, declarations, views, layout, viewed, all⟩ := given
    have parted := (regions_exact numbered_ordered).mpr ⟨_, _, _, _, layout, rfl⟩
    simp only [Template.readLines, parted, viewed, all]

theorem readLines_exact {lines : List Line} (plain : ∀ line ∈ lines, '\n' ∉ line) :
    (∃ template, Template.readLines (numberLines (· + 1) lines) = .ok template) ↔
      IsTemplate (numberLines (· + 1) lines) := by
  have assembled : ∀ {before header declarations views},
      Layout (numberLines (· + 1) lines) before header declarations views → ∀ logical,
        Runs (declarations.filter fun row => ¬ Ignorable row.2) logical ↔ assemble declarations = logical := by
    intro before header declarations views layout logical
    rw [filter_ignorable fun row listed => plain row.2 (@numbered_line _ (· + 1) _ ?_), runs_exact]
    rw [layout.rows]
    simp [listed]
  constructor
  · intro given
    obtain ⟨template, read⟩ := given
    obtain ⟨before, header, declarations, views, layout, viewed, all⟩ := readLines_ok.mp read
    obtain ⟨names, titles, distinct, _⟩ := readViews_exact.mp ⟨_, viewed⟩
    obtain ⟨meanings, declared, copies⟩ := declareAll_exact.mp ⟨_, all⟩
    rw [splitAtViews_heads] at titles
    exact .template layout titles distinct ((assembled layout _).mpr rfl) declared copies
  · intro given
    obtain ⟨layout, titles, distinct, runs, declared, copies⟩ := given
    rw [assembled layout] at runs
    subst runs
    rw [← splitAtViews_heads] at titles
    obtain ⟨table, viewed⟩ := (@readViews_exact ∅ _).mpr ⟨_, titles, distinct, by simp [Table.mem_keys]⟩
    obtain ⟨context, all⟩ := (@declareAll_exact .empty _).mpr ⟨_, declared, copies⟩
    exact ⟨⟨table, context⟩, readLines_ok.mpr ⟨_, _, _, _, layout, viewed, all⟩⟩

theorem PhysicalLines.visible {text : List Char} {lines : List Line} {header : Line}
    (physical : PhysicalLines text lines) (listed : header ∈ lines) (tagged : dataTag.toList <+: header) :
    isAllBlank text = false := by
  have tag : '#' ∈ text := physical.characters listed (tagged.subset (by decide))
  rw [Bool.eq_false_iff]
  intro blank
  exact absurd (isAllBlank_iff.mp blank '#' tag) (by decide)

theorem template_visible {text : List Char} {lines : List Line} (physical : PhysicalLines text lines)
    (template : IsTemplate (numberLines (· + 1) lines)) : isAllBlank text = false := by
  obtain @⟨_, _, _, header, _, _, _, layout, _⟩ := template
  obtain ⟨blanks, _, spelled⟩ := layout.header
  have listed : header ∈ numberLines (· + 1) lines := by
    rw [layout.rows]
    simp
  exact physical.visible (numbered_line listed) ⟨blanks, spelled.symm⟩

theorem read_ok {text : String} {template : Template} : Template.read text = .ok template ↔
    Template.readLines (numberedLines text.toList) = .ok template := by
  have physical := physicalLines_splitLines text.toList
  unfold Template.read
  constructor
  · intro read
    split at read
    · cases read
    · exact read
  · intro read
    have grammar := (readLines_exact fun line listed => physical.plain listed).mp ⟨template, read⟩
    rw [if_neg (by simp [template_visible physical grammar])]
    exact read

theorem template_exact (text : String) :
    (∃ template, Template.read text = .ok template) ↔ IsTemplateText text.toList := by
  have physical := physicalLines_splitLines text.toList
  have lines := @readLines_exact (splitLines text.toList) fun line listed => physical.plain listed
  unfold Template.read IsTemplateText
  simp only [physicalLines_exact, exists_eq_left']
  rw [← lines]
  constructor
  · intro given
    obtain ⟨template, read⟩ := given
    split at read
    · cases read
    · exact ⟨template, read⟩
  · intro read
    rw [if_neg (by simp [template_visible physical (lines.mp read)])]
    exact read

end WiredViews
