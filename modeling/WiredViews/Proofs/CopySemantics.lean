import WiredViews.Proofs.RetoldRegions

-- Declarations count one after the other, and a copy takes what its target stands for at that
-- point: it can as well be written out.
namespace WiredViews

def Declaration.variable? : Declaration → Option String
  | .assign name _ => some name
  | .serve _ _ => none

def Declaration.service? : Declaration → Option String
  | .assign _ _ => none
  | .serve name _ => some name

def Unassigned (name : String) (declarations : List Declaration) : Prop :=
  ∀ assignment, Declaration.assign name assignment ∉ declarations

-- What a name stands for after some declarations. The last one that assigns it says so; if that
-- is a copy, it is what the target stood for then.
inductive StandsFor : List Declaration → String → Variable → Prop where
  | written {earlier later : List Declaration} {name : String} {meaning : Variable} (last : Unassigned name later) :
      StandsFor (earlier ++ .assign name meaning.assignment :: later) name meaning
  | copied {earlier later : List Declaration} {name target : String} {meaning : Variable}
      (last : Unassigned name later) (stood : StandsFor earlier target meaning) :
      StandsFor (earlier ++ .assign name (.copy target) :: later) name meaning

def ServedAs (declarations : List Declaration) (name : String) (service : Service) : Prop :=
  ∃ earlier later, declarations = earlier ++ .serve name service :: later ∧ ∀ other, .serve name other ∉ later

inductive Resolves : List Declaration → List Declaration → List Declaration → Prop where
  | done {earlier : List Declaration} : Resolves earlier [] []
  | kept {earlier rest plain : List Declaration} {declaration : Declaration}
      (written : ∀ name target, declaration ≠ .assign name (.copy target))
      (later : Resolves (earlier ++ [declaration]) rest plain) :
      Resolves earlier (declaration :: rest) (declaration :: plain)
  | copied {earlier rest plain : List Declaration} {name target : String} {meaning : Variable}
      (stood : StandsFor earlier target meaning)
      (later : Resolves (earlier ++ [.assign name (.copy target)]) rest plain) :
      Resolves earlier (.assign name (.copy target) :: rest) (.assign name meaning.assignment :: plain)

inductive Rewrites : List Declaration → List (List Char) → List (List Char) → Prop where
  | done {earlier : List Declaration} : Rewrites earlier [] []
  | kept {earlier : List Declaration} {text : List Char} {rest others : List (List Char)} {declaration : Declaration}
      (spelled : IsDeclaration text declaration)
      (written : ∀ name target, declaration ≠ .assign name (.copy target))
      (later : Rewrites (earlier ++ [declaration]) rest others) : Rewrites earlier (text :: rest) (text :: others)
  | copied {earlier : List Declaration} {left right value : List Char} {rest others : List (List Char)}
      {name target : String} {meaning : Variable} (first : '=' ∉ left) (identifier : Spaced ['$' :: name.toList] left)
      (declarable : Declarable name) (copy : IsAssignment right (.copy target))
      (stood : StandsFor earlier target meaning) (definition : IsAssignment value meaning.assignment)
      (later : Rewrites (earlier ++ [.assign name (.copy target)]) rest others) :
      Rewrites earlier ((left ++ '=' :: right) :: rest) ((left ++ '=' :: value) :: others)

-- A service and a variable that stand next to each other change places.
inductive Exchanged : List (List Char) → List (List Char) → Prop where
  | down {before after : List (List Char)} {serving binding : List Char} {name other : String}
      {service : Service} {assignment : Assignment} (serves : IsDeclaration serving (.serve name service))
      (assigns : IsDeclaration binding (.assign other assignment)) :
      Exchanged (before ++ serving :: binding :: after) (before ++ binding :: serving :: after)
  | up {before after : List (List Char)} {serving binding : List Char} {name other : String}
      {service : Service} {assignment : Assignment} (serves : IsDeclaration serving (.serve name service))
      (assigns : IsDeclaration binding (.assign other assignment)) :
      Exchanged (before ++ binding :: serving :: after) (before ++ serving :: binding :: after)

def declareEach (context : Context) (declarations : List Declaration) : Except SyntaxFault Context :=
  declarations.foldlM Context.declare context

section Meanings
variable {declarations earlier later : List Declaration} {declaration : Declaration} {name target : String}
  {meaning : Variable} {context whole : Context}

theorem snoc_split {α : Type} {items early late : List α} {item last : α} :
    items ++ [last] = early ++ item :: late ↔ (late = [] ∧ early = items ∧ item = last) ∨
      ∃ more, late = more ++ [last] ∧ items = early ++ item :: more := by
  constructor
  · intro same
    rcases List.eq_nil_or_concat' late with rfl | ⟨more, final, rfl⟩
    · obtain ⟨rfl, ended⟩ := List.append_inj' same rfl
      exact Or.inl ⟨rfl, rfl, (List.cons.inj ended).1.symm⟩
    · rw [← List.cons_append, ← List.append_assoc] at same
      obtain ⟨rfl, ended⟩ := List.append_inj' same rfl
      exact Or.inr ⟨more, by rw [(List.cons.inj ended).1], rfl⟩
  · rintro (⟨rfl, rfl, rfl⟩ | ⟨more, rfl, rfl⟩)
    · rfl
    · simp

theorem unassigned_snoc : Unassigned name (later ++ [declaration]) ↔
    Unassigned name later ∧ ∀ assignment, declaration ≠ .assign name assignment := by
  simp only [Unassigned, List.mem_append, List.mem_singleton, not_or, forall_and, ne_comm, ne_eq]

theorem standsFor_snoc : StandsFor (declarations ++ [declaration]) name meaning ↔
    declaration = .assign name meaning.assignment ∨
      (∃ target, declaration = .assign name (.copy target) ∧ StandsFor declarations target meaning) ∨
      ((∀ assignment, declaration ≠ .assign name assignment) ∧ StandsFor declarations name meaning) := by
  constructor
  · intro stands
    generalize same : declarations ++ [declaration] = all at stands
    cases stands with
    | @written earlier later _ _ last =>
      rcases snoc_split.mp same with ⟨rfl, rfl, rfl⟩ | ⟨later, rfl, rfl⟩
      · exact Or.inl rfl
      · obtain ⟨last, other⟩ := unassigned_snoc.mp last
        exact Or.inr (Or.inr ⟨other, .written last⟩)
    | @copied earlier later _ target _ last stood =>
      rcases snoc_split.mp same with ⟨rfl, rfl, rfl⟩ | ⟨later, rfl, rfl⟩
      · exact Or.inr (Or.inl ⟨target, rfl, stood⟩)
      · obtain ⟨last, other⟩ := unassigned_snoc.mp last
        exact Or.inr (Or.inr ⟨other, .copied last stood⟩)
  · rintro (rfl | ⟨target, rfl, stood⟩ | ⟨other, stands⟩)
    · exact .written (by simp [Unassigned])
    · exact .copied (by simp [Unassigned]) stood
    · cases stands with
      | written last =>
        rw [List.append_assoc]
        exact .written (unassigned_snoc.mpr ⟨last, other⟩)
      | copied last stood =>
        rw [List.append_assoc]
        exact .copied (unassigned_snoc.mpr ⟨last, other⟩) stood

theorem not_standsFor_nil : ¬ StandsFor [] name meaning := by
  intro stands
  generalize same : ([] : List Declaration) = all at stands
  cases stands <;> simp at same

theorem Variable.assignment_injective {meaning other : Variable} (same : meaning.assignment = other.assignment) :
    meaning = other := by
  cases meaning <;> cases other <;> cases same <;> rfl

theorem Variable.assignment_not_copy (meaning : Variable) (target : String) : meaning.assignment ≠ .copy target := by
  cases meaning <;> simp [Variable.assignment]

theorem standsFor_written {given : Variable} :
    StandsFor (declarations ++ [.assign name given.assignment]) name meaning ↔ given = meaning := by
  rw [standsFor_snoc]
  constructor
  · intro stands
    rcases stands with same | ⟨target, copy, _⟩ | ⟨other, _⟩
    · exact Variable.assignment_injective (Declaration.assign.inj same).2
    · exact absurd (Declaration.assign.inj copy).2 (given.assignment_not_copy target)
    · exact absurd rfl (other _)
  · intro same
    exact Or.inl (by rw [same])

theorem standsFor_copied :
    StandsFor (declarations ++ [.assign name (.copy target)]) name meaning ↔ StandsFor declarations target meaning := by
  rw [standsFor_snoc]
  constructor
  · intro stands
    rcases stands with same | ⟨_, copy, stood⟩ | ⟨other, _⟩
    · exact absurd (Declaration.assign.inj same).2.symm (meaning.assignment_not_copy target)
    · cases copy
      exact stood
    · exact absurd rfl (other _)
  · intro stood
    exact Or.inr (Or.inl ⟨target, rfl, stood⟩)

theorem standsFor_other (other : ∀ assignment, declaration ≠ .assign name assignment) :
    StandsFor (declarations ++ [declaration]) name meaning ↔ StandsFor declarations name meaning := by
  simp [standsFor_snoc, other]

theorem standsFor_copy (last : Unassigned name later) :
    StandsFor (earlier ++ .assign name (.copy target) :: later) name meaning ↔ StandsFor earlier target meaning := by
  induction later using List.reverseRecOn with
  | nil => exact standsFor_copied
  | append_singleton later final ih =>
    obtain ⟨last, other⟩ := unassigned_snoc.mp last
    rw [← List.cons_append, ← List.append_assoc, standsFor_other other, ih last]

theorem servedAs_snoc {service : Service} : ServedAs (declarations ++ [declaration]) name service ↔
    declaration = .serve name service ∨
      ((∀ other, declaration ≠ .serve name other) ∧ ServedAs declarations name service) := by
  constructor
  · rintro ⟨earlier, later, same, last⟩
    rcases snoc_split.mp same with ⟨rfl, rfl, rfl⟩ | ⟨later, rfl, rfl⟩
    · exact Or.inl rfl
    · simp only [List.mem_append, List.mem_singleton, not_or, forall_and] at last
      exact Or.inr ⟨fun other same => last.2 other same.symm, earlier, later, rfl, last.1⟩
  · rintro (rfl | ⟨differ, earlier, later, rfl, last⟩)
    · exact ⟨declarations, [], rfl, by simp⟩
    · refine ⟨earlier, later ++ [declaration], by simp, fun other listed => ?_⟩
      rcases List.mem_append.mp listed with before | final
      · exact last other before
      · exact differ other (List.mem_singleton.mp final).symm

end Meanings

section Declaring
variable {declarations : List Declaration} {declaration : Declaration} {name : String} {context more whole : Context}

theorem declareEach_ok {rest : List Declaration} : declareEach context (declaration :: rest) = .ok whole ↔
    ∃ more, context.declare declaration = .ok more ∧ declareEach more rest = .ok whole :=
  foldlM_cons_ok

theorem declareEach_snoc : declareEach context (declarations ++ [declaration]) = .ok whole ↔
    ∃ more, declareEach context declarations = .ok more ∧ more.declare declaration = .ok whole := by
  rw [declareEach, foldlM_append_ok]
  simp only [foldlM_cons_ok]
  simp [declareEach, pure, Except.pure]

theorem declare_ok : context.declare declaration = .ok more ↔
    (∃ name service, declaration = .serve name service ∧ more = context.serve name service) ∨
      ∃ name meaning, more = context.assign name meaning ∧ (declaration = .assign name meaning.assignment ∨
        ∃ target, declaration = .assign name (.copy target) ∧ context.bindings.get? target = some meaning) := by
  constructor
  · intro declared
    cases declaration with
    | serve name service =>
      cases declared
      exact Or.inl ⟨name, service, rfl, rfl⟩
    | assign name assignment =>
      refine Or.inr ⟨name, ?_⟩
      cases assignment with
      | literal value =>
        cases declared
        exact ⟨.constant value, rfl, Or.inl rfl⟩
      | reference service field =>
        cases declared
        exact ⟨.reference service field, rfl, Or.inl rfl⟩
      | copy target =>
        rw [Context.declare] at declared
        split at declared
        · cases declared
        · rename_i meaning held
          cases declared
          exact ⟨meaning, rfl, Or.inr ⟨target, rfl, held⟩⟩
  · rintro (⟨name, service, rfl, rfl⟩ | ⟨name, meaning, rfl, rfl | ⟨target, rfl, held⟩⟩)
    · rfl
    · cases meaning <;> rfl
    · rw [Context.declare, held]

theorem declare_copied {target : String} {meaning : Variable} (held : context.bindings.get? target = some meaning) :
    context.declare (.assign name (.copy target)) = context.declare (.assign name meaning.assignment) := by
  rw [Context.declare, held]
  cases meaning <;> rfl

theorem declare_exchange {service : Service} {other : String} {assignment : Assignment} :
    (∃ more, context.declare (.serve name service) = .ok more ∧
        more.declare (.assign other assignment) = .ok whole) ↔
      ∃ more, context.declare (.assign other assignment) = .ok more ∧
        more.declare (.serve name service) = .ok whole := by
  cases assignment with
  | literal value => simp [Context.declare, Context.serve, Context.assign]
  | reference service field => simp [Context.declare, Context.serve, Context.assign]
  | copy target =>
    cases held : context.bindings.get? target <;> simp [Context.declare, Context.serve, Context.assign, held]

theorem declared_meanings (declared : declareEach .empty declarations = .ok whole) (name : String)
    (meaning : Variable) : whole.bindings.get? name = some meaning ↔ StandsFor declarations name meaning := by
  induction declarations using List.reverseRecOn generalizing whole name meaning with
  | nil =>
    cases declared
    have nothing : (Context.empty.bindings.get? name) = none := rfl
    simp [nothing, not_standsFor_nil]
  | append_singleton declarations declaration ih =>
    obtain ⟨more, before, here⟩ := declareEach_snoc.mp declared
    rcases declare_ok.mp here with ⟨_, _, rfl, rfl⟩ | ⟨other, given, rfl, same⟩
    · rw [standsFor_other (by simp)]
      exact ih before name meaning
    · rw [Context.assign, Table.get?_insert]
      by_cases own : other = name
      · subst own
        rw [if_pos rfl, Option.some.injEq]
        rcases same with rfl | ⟨target, rfl, held⟩
        · exact standsFor_written.symm
        · rw [standsFor_copied, ← ih before, held, Option.some.injEq]
      · have apart : ∀ assignment, declaration ≠ .assign name assignment := by
          rcases same with rfl | ⟨target, rfl, held⟩ <;> simp [own]
        rw [if_neg own, standsFor_other apart, ih before]

theorem declareTexts_each {texts : List (List Char)} : declareTexts context texts = .ok whole ↔
    ∃ declarations, List.Forall₂ IsDeclaration texts declarations ∧ declareEach context declarations = .ok whole := by
  induction texts generalizing context with
  | nil => simp [declareTexts_nil, declareEach, pure, Except.pure]
  | cons text rest ih =>
    simp only [declareTexts_ok, ih]
    constructor
    · rintro ⟨declaration, more, spelled, here, declarations, others, later⟩
      exact ⟨declaration :: declarations, .cons spelled others, declareEach_ok.mpr ⟨more, here, later⟩⟩
    · rintro ⟨_, spelled, declared⟩
      cases spelled with
      | @cons _ declaration _ declarations here others =>
        obtain ⟨more, first, later⟩ := declareEach_ok.mp declared
        exact ⟨declaration, more, here, first, declarations, others, later⟩

theorem declared_keys (declared : declareEach .empty declarations = .ok whole) :
    whole.bindings.keys = distinct (declarations.filterMap Declaration.variable?) ∧
      whole.services.keys = distinct (declarations.filterMap Declaration.service?) := by
  induction declarations using List.reverseRecOn generalizing whole with
  | nil =>
    cases declared
    exact ⟨rfl, rfl⟩
  | append_singleton declarations declaration ih =>
    obtain ⟨more, before, here⟩ := declareEach_snoc.mp declared
    obtain ⟨bound, served⟩ := ih before
    rw [List.filterMap_append, List.filterMap_append]
    rcases declare_ok.mp here with ⟨name, service, rfl, rfl⟩ | ⟨name, meaning, rfl, same⟩
    · simp only [List.filterMap_cons, List.filterMap_nil, Declaration.variable?, Declaration.service?, List.append_nil]
      exact ⟨bound, Table.keys_insert_distinct served⟩
    · have kind : declaration.variable? = some name ∧ declaration.service? = none := by
        rcases same with rfl | ⟨_, rfl, _⟩ <;> exact ⟨rfl, rfl⟩
      simp only [List.filterMap_cons, List.filterMap_nil, kind, List.append_nil]
      exact ⟨Table.keys_insert_distinct bound, served⟩

theorem declared_services (declared : declareEach .empty declarations = .ok whole) (name : String)
    (service : Service) : whole.services.get? name = some service ↔ ServedAs declarations name service := by
  induction declarations using List.reverseRecOn generalizing whole name service with
  | nil =>
    cases declared
    have nothing : (Context.empty.services.get? name) = none := rfl
    simp [nothing, ServedAs]
  | append_singleton declarations declaration ih =>
    obtain ⟨more, before, here⟩ := declareEach_snoc.mp declared
    rw [servedAs_snoc]
    rcases declare_ok.mp here with ⟨other, given, rfl, rfl⟩ | ⟨other, given, rfl, same⟩
    · rw [Context.serve, Table.get?_insert]
      by_cases own : other = name
      · simp [own]
      · simp [own, ih before]
    · rcases same with rfl | ⟨_, rfl, _⟩ <;> simp [Context.assign, ih before]

theorem Resolves.declared {earlier plain : List Declaration} (resolves : Resolves earlier declarations plain)
    (before : declareEach .empty earlier = .ok context) (declared : declareEach context declarations = .ok whole) :
    declareEach context plain = .ok whole := by
  induction resolves generalizing context with
  | done => exact declared
  | kept _ _ ih =>
    obtain ⟨more, here, later⟩ := declareEach_ok.mp declared
    exact declareEach_ok.mpr ⟨more, here, ih (declareEach_snoc.mpr ⟨context, before, here⟩) later⟩
  | @copied _ _ _ _ target meaning stood _ ih =>
    have held := (declared_meanings before target meaning).mpr stood
    obtain ⟨more, here, later⟩ := declareEach_ok.mp declared
    refine declareEach_ok.mpr ⟨more, ?_, ih (declareEach_snoc.mpr ⟨context, before, here⟩) later⟩
    rwa [← declare_copied held]

theorem resolves_exists {earlier : List Declaration} (before : declareEach .empty earlier = .ok context)
    (declared : declareEach context declarations = .ok whole) : ∃ plain, Resolves earlier declarations plain := by
  induction declarations generalizing context earlier with
  | nil => exact ⟨[], .done⟩
  | cons declaration rest ih =>
    obtain ⟨more, here, later⟩ := declareEach_ok.mp declared
    obtain ⟨plain, resolves⟩ := ih (declareEach_snoc.mpr ⟨context, before, here⟩) later
    rcases declare_ok.mp here with ⟨name, service, rfl, _⟩ | ⟨name, meaning, _, rfl | ⟨target, rfl, held⟩⟩
    · exact ⟨_, .kept (by simp) resolves⟩
    · exact ⟨_, .kept (by cases meaning <;> simp [Variable.assignment]) resolves⟩
    · exact ⟨_, .copied ((declared_meanings before target meaning).mp held) resolves⟩

end Declaring

section Texts
variable {earlier declarations : List Declaration} {texts others : List (List Char)} {context whole : Context}

theorem declaration_unique : Relator.RightUnique IsDeclaration := by
  intro text first second one two
  have read := declaration_exact.mpr one
  rw [declaration_exact.mpr two] at read
  exact (Except.ok.inj read).symm

theorem Rewrites.resolves (rewrites : Rewrites earlier texts others) : ∃ declarations plain,
    List.Forall₂ IsDeclaration texts declarations ∧ List.Forall₂ IsDeclaration others plain ∧
      Resolves earlier declarations plain := by
  induction rewrites with
  | done => exact ⟨[], [], .nil, .nil, .done⟩
  | kept spelled written _ ih =>
    obtain ⟨declarations, plain, before, after, resolves⟩ := ih
    exact ⟨_, _, .cons spelled before, .cons spelled after, .kept written resolves⟩
  | copied first identifier declarable copy stood definition _ ih =>
    obtain ⟨declarations, plain, before, after, resolves⟩ := ih
    exact ⟨_, _, .cons (.assign rfl first identifier declarable copy) before,
      .cons (.assign rfl first identifier declarable definition) after, .copied stood resolves⟩

theorem Rewrites.declared (rewrites : Rewrites [] texts others) (declared : declareTexts .empty texts = .ok whole) :
    declareTexts .empty others = .ok whole := by
  obtain ⟨declarations, plain, before, after, resolves⟩ := rewrites.resolves
  obtain ⟨_, spelled, each⟩ := declareTexts_each.mp declared
  obtain rfl := List.right_unique_forall₂' declaration_unique before spelled
  exact declareTexts_each.mpr ⟨plain, after, resolves.declared rfl each⟩

theorem declareText_spelled {text : List Char} {declaration : Declaration} (spelled : IsDeclaration text declaration) :
    declareText context text = context.declare declaration := by
  rw [declareText, declaration_exact.mpr spelled]

theorem declareTexts_exchange {serving binding : List Char} {name other : String} {service : Service}
    {assignment : Assignment} (serves : IsDeclaration serving (.serve name service))
    (assigns : IsDeclaration binding (.assign other assignment)) :
    declareTexts context [serving, binding] = .ok whole ↔ declareTexts context [binding, serving] = .ok whole := by
  simp only [declareTexts, foldlM_cons_ok, declareText_spelled serves, declareText_spelled assigns, List.foldlM_nil,
    pure, Except.pure, Except.ok.injEq, exists_eq_right]
  exact declare_exchange

theorem Exchanged.declared (exchanged : Exchanged texts others) (declared : declareTexts .empty texts = .ok whole) :
    declareTexts .empty others = .ok whole := by
  have swapped : ∀ {before after pair turned : List (List Char)},
      (∀ {context next : Context}, declareTexts context pair = .ok next → declareTexts context turned = .ok next) →
      declareTexts .empty (before ++ (pair ++ after)) = .ok whole →
      declareTexts .empty (before ++ (turned ++ after)) = .ok whole := by
    intro before after pair turned turns declared
    obtain ⟨first, early, rest⟩ := foldlM_append_ok.mp declared
    obtain ⟨second, here, late⟩ := foldlM_append_ok.mp rest
    exact foldlM_append_ok.mpr ⟨first, early, foldlM_append_ok.mpr ⟨second, turns here, late⟩⟩
  cases exchanged with
  | down serves assigns => exact swapped (declareTexts_exchange serves assigns).mp declared
  | up serves assigns => exact swapped (declareTexts_exchange serves assigns).mpr declared

end Texts

-- Whichever text declares these instead, the tables are the same. The lines of the views are
-- counted from the top, so they move with the length of the region.
def SameTables (template : Template) (above : List Line) (header : Line) (region below : List Line)
    (texts : List (List Char)) : Prop :=
  ∀ other lines, Retold above header below other lines texts → ∃ twin, Template.read other = .ok twin ∧
    twin.context = template.context ∧ loweredViews region.length twin.views = loweredViews lines.length template.views

def Declares (text : String) (declarations : List Declaration) : Prop :=
  ∃ above header region below, Framed (splitLines text.toList) above header region below ∧
    List.Forall₂ IsDeclaration (regionTexts region) declarations

structure Sequential (text : String) (template : Template) (above : List Line) (header : Line)
    (region below : List Line) (declarations : List Declaration) : Prop where
  framed : Framed (splitLines text.toList) above header region below
  spelled : List.Forall₂ IsDeclaration (regionTexts region) declarations
  resolved : ∃ plain, Resolves [] declarations plain ∧ declareEach .empty plain = .ok template.context
  variableNames : template.context.bindings.keys = distinct (declarations.filterMap Declaration.variable?)
  meanings : ∀ name meaning, template.context.bindings.get? name = some meaning ↔ StandsFor declarations name meaning
  serviceNames : template.context.services.keys = distinct (declarations.filterMap Declaration.service?)
  servings : ∀ name service, template.context.services.get? name = some service ↔ ServedAs declarations name service
  steady : ∀ earlier name target later more, declarations = earlier ++ .assign name (.copy target) :: later →
    Unassigned name later → Unassigned name more → ∀ other twin,
      Declares other (earlier ++ .assign name (.copy target) :: more) → Template.read other = .ok twin →
      twin.context.bindings.get? name = template.context.bindings.get? name
  rewritten : ∀ texts, Rewrites [] (regionTexts region) texts → SameTables template above header region below texts
  rewritable : ∃ texts, Rewrites [] (regionTexts region) texts ∧ ∃ other, Retold above header below other texts texts
  exchanged : ∀ texts, Exchanged (regionTexts region) texts → SameTables template above header region below texts
  exchangeable : ∀ texts, Exchanged (regionTexts region) texts → ∃ other, Retold above header below other texts texts

section Copies
variable {text : String} {template : Template} {above region below : List Line} {header : Line}

theorem copy_dataLine {left right : List Char} {name : String} {meaning : Variable}
    (data : DataLine (left ++ '=' :: right)) (identifier : Spaced ['$' :: name.toList] left)
    (spellable : meaning.Spellable) : DataLine (left ++ '=' :: ' ' :: meaning.spelled.toList) := by
  have bare : '\n' ∉ left := fun member => data.ended.plain (List.mem_append_left _ member)
  have plain : '\n' ∉ left ++ ['=', ' '] := by simp [bare]
  refine ⟨?_, ?_⟩
  · have ended := (lineEnd_variable spellable).append plain
    rwa [List.append_assoc] at ended
  · obtain ⟨blanks, rest, _, rfl, _⟩ := spaced_cons.mp identifier
    obtain ⟨_, tail, same⟩ := data
    cases blanks with
    | nil => exact ⟨_, Or.inl rfl⟩
    | cons c blanks =>
      rcases same with same | same
      · exact ⟨_, Or.inl (congrArg (· :: _) (List.cons.inj same).1)⟩
      · exact ⟨_, Or.inr (congrArg (· :: _) (List.cons.inj same).1)⟩

theorem rewrites_exists {earlier declarations : List Declaration} {texts all : List (List Char)}
    {context whole : Context} (before : declareEach .empty earlier = .ok context)
    (declared : declareEach context declarations = .ok whole) (spelled : List.Forall₂ IsDeclaration texts declarations)
    (data : ∀ text ∈ texts, DataLine text) (listed : ∀ text ∈ texts, text ∈ all) (traced : Traced all context) :
    ∃ others, Rewrites earlier texts others ∧ ∀ text ∈ others, DataLine text := by
  induction spelled generalizing context earlier with
  | nil => exact ⟨[], .done, by simp⟩
  | @cons text declaration rest declarations given _ ih =>
    rw [List.forall_mem_cons] at data listed
    obtain ⟨more, here, later⟩ := declareEach_ok.mp declared
    obtain ⟨others, rewrites, lines⟩ := ih (declareEach_snoc.mpr ⟨context, before, here⟩) later data.2 listed.2
      (traced.declare listed.1 data.1.ended.plain given here)
    have keeps : (∀ name target, declaration ≠ .assign name (.copy target)) → ∃ others,
        Rewrites earlier (text :: rest) others ∧ ∀ text ∈ others, DataLine text :=
      fun written => ⟨text :: others, .kept given written rewrites, List.forall_mem_cons.mpr ⟨data.1, lines⟩⟩
    rcases declare_ok.mp here with ⟨_, _, rfl, _⟩ | ⟨name, meaning, _, rfl | ⟨target, rfl, held⟩⟩
    · exact keeps (by simp)
    · exact keeps (by cases meaning <;> simp [Variable.assignment])
    · cases given with
      | @assign left right _ _ split first identifier declarable copy =>
        have stood := (declared_meanings before target meaning).mp held
        have spellable := (traced.bindings (target, meaning) (Table.get?_eq_some.mp held)).2
        have line := copy_dataLine (split ▸ data.1) identifier spellable
        subst split
        exact ⟨_, .copied first identifier declarable copy stood (spelled_assignment spellable) rewrites,
          List.forall_mem_cons.mpr ⟨line, lines⟩⟩

theorem Framed.sameTables {texts : List (List Char)} (framed : Framed (splitLines text.toList) above header region below)
    (read : Template.read text = .ok template) (declared : declareTexts .empty texts = .ok template.context) :
    SameTables template above header region below texts := by
  rintro other lines ⟨reframed, rfl⟩
  exact framed.read_moved reframed (by omega) read declared

theorem Declares.meanings {declarations : List Declaration} (declares : Declares text declarations)
    (read : Template.read text = .ok template) (name : String) (meaning : Variable) :
    template.context.bindings.get? name = some meaning ↔ StandsFor declarations name meaning := by
  obtain ⟨_, _, _, _, framed, given⟩ := declares
  obtain ⟨_, declared⟩ := framed.read_ok.mp read
  obtain ⟨_, spelled, each⟩ := declareTexts_each.mp declared
  obtain rfl := List.right_unique_forall₂' declaration_unique given spelled
  exact declared_meanings each name meaning

theorem Exchanged.perm {texts others : List (List Char)} (exchanged : Exchanged texts others) :
    texts.Perm others := by
  cases exchanged with
  | down | up => exact List.Perm.append_left _ (List.Perm.swap _ _ _)

end Copies

theorem read_sequential {text : String} {template : Template} (read : Template.read text = .ok template) :
    ∃ above header region below declarations, Sequential text template above header region below declarations := by
  obtain ⟨above, header, region, below, framed⟩ := read_framed read
  obtain ⟨_, declared⟩ := framed.read_ok.mp read
  obtain ⟨declarations, spelled, each⟩ := declareTexts_each.mp declared
  have meanings := declared_meanings each
  have data := framed.dataLines spelled
  have nothing : declareEach .empty [] = .ok .empty := rfl
  refine ⟨above, header, region, below, declarations, ?_⟩
  constructor
  case framed => exact framed
  case spelled => exact spelled
  case resolved =>
    obtain ⟨plain, resolves⟩ := resolves_exists nothing each
    exact ⟨plain, resolves, resolves.declared nothing each⟩
  case variableNames => exact (declared_keys each).1
  case serviceNames => exact (declared_keys each).2
  case meanings => exact meanings
  case servings => exact declared_services each
  case steady =>
    rintro earlier name target later more rfl last final other twin declares reread
    ext meaning
    rw [meanings, standsFor_copy last, declares.meanings reread, standsFor_copy final]
  case rewritten => exact fun texts rewrites => framed.sameTables read (rewrites.declared declared)
  case rewritable =>
    obtain ⟨texts, rewrites, lines⟩ := rewrites_exists nothing each spelled data (fun _ listed => listed) traced_empty
    exact ⟨texts, rewrites, framed.retold lines⟩
  case exchanged => exact fun texts exchanged => framed.sameTables read (exchanged.declared declared)
  case exchangeable =>
    exact fun texts exchanged => framed.retold fun text listed => data text (exchanged.perm.mem_iff.mpr listed)

def departures : String :=
  "#data\n$start = 'Oslo'\n$port = $start\n@over = Ferry \x7b from = $port; \x7d\n$start = $port\n" ++
    "$port = goal <- @over\n$start = $start\n#view\n"

theorem departures_sequential : ∃ template, Template.read departures = .ok template ∧
    (∃ above header region below declarations,
      Sequential departures template above header region below declarations) ∧
    template.context.bindings.rows = [("start", .constant "Oslo"), ("port", .reference "over" "goal")] := by
  have known : (Template.read departures).toOption.map (fun template => template.context.bindings.rows) =
      some [("start", .constant "Oslo"), ("port", .reference "over" "goal")] := by decide +kernel
  obtain ⟨template, read, bindings⟩ := read_known known
  exact ⟨template, read, read_sequential read, bindings⟩

end WiredViews
