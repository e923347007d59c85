import WiredViews.Proofs.DeclarationGrammar
import WiredViews.Proofs.LogicalRuns
import WiredViews.Proofs.PhysicalLines

-- Templates written out again: each declaration on a line of its own. A constant may hold
-- anything that fits on a line, also what would mean something elsewhere.
namespace WiredViews

def Variable.spelled : Variable → String
  | .constant value => "'" ++ value ++ "'"
  | .reference service field => field ++ " <- @" ++ service

def Dependency.spelled (dependency : Dependency) : String :=
  " " ++ dependency.argument ++ " = $" ++ dependency.source ++ ";"

def Service.spelled (service : Service) : String :=
  service.provider ++ " \x7b" ++ String.join (service.dependencies.map Dependency.spelled) ++ " \x7d"

def spelledBinding (row : String × Variable) : String :=
  "$" ++ row.1 ++ " = " ++ row.2.spelled

def spelledService (row : String × Service) : String :=
  "@" ++ row.1 ++ " = " ++ row.2.spelled

def Context.spelled (context : Context) : List String :=
  context.bindings.rows.map spelledBinding ++ context.services.rows.map spelledService

inductive Variable.Spellable : Variable → Prop where
  | constant {value : String} (plain : '\n' ∉ value.toList) : Spellable (.constant value)
  | reference {service field : String} (owner : isName service.toList = true)
      (output : isName field.toList = true) : Spellable (.reference service field)

structure Service.Spellable (service : Service) : Prop where
  provider : isProviderName service.provider.toList = true
  dependencies : ∀ dependency ∈ service.dependencies, dependency.Named
  distinct : (service.dependencies.map Dependency.argument).Nodup

structure Context.Spellable (context : Context) : Prop where
  bindings : ∀ row ∈ context.bindings.rows, Declarable row.1 ∧ row.2.Spellable
  services : ∀ row ∈ context.services.rows, Declarable row.1 ∧ row.2.Spellable

def Variable.assignment : Variable → Assignment
  | .constant value => .literal value
  | .reference service field => .reference service field

section Meanings

theorem spaced_space {token rest : List Char} {tokens : List (List Char)} (spaced : Spaced tokens rest) :
    Spaced (token :: tokens) (' ' :: (token ++ rest)) :=
  @Spaced.token [' '] token rest tokens (by decide) spaced

theorem spelled_assignment {meaning : Variable} (spellable : meaning.Spellable) :
    IsAssignment (' ' :: meaning.spelled.toList) meaning.assignment := by
  cases spellable with
  | @constant value plain =>
    have text : (Variable.constant value).spelled.toList = '\'' :: (value.toList ++ ['\'']) ++ [] := by
      simp [Variable.spelled]
    rw [text]
    exact .literal (spaced_space (.done rfl))
  | @reference service field owner output =>
    have text : (Variable.reference service field).spelled.toList =
        field.toList ++ ' ' :: (['<', '-'] ++ ' ' :: ('@' :: service.toList ++ [])) := by
      simp [Variable.spelled]
    rw [text]
    exact .reference output owner (spaced_space (spaced_space (spaced_space (.done rfl))))

theorem spaced_dependencies (dependencies : List Dependency) :
    Spaced (dependencies.flatMap Dependency.tokens)
      (dependencies.flatMap fun dependency => dependency.spelled.toList) := by
  induction dependencies with
  | nil => exact .done rfl
  | cons dependency rest ih =>
    rw [List.flatMap_cons, List.flatMap_cons]
    refine spaced_append.mpr ⟨_, _, rfl, ?_, ih⟩
    refine spaced_entry.mpr ⟨[' '], [' '], [' '], [], [], by decide, by decide, by decide, rfl, rfl, ?_⟩
    simp [Dependency.spelled]

theorem spelled_service {service : Service} (spellable : service.Spellable) :
    IsService (' ' :: service.spelled.toList) service := by
  have text : service.spelled.toList = service.provider.toList ++ ' ' :: (['{'] ++
      ((service.dependencies.flatMap fun dependency => dependency.spelled.toList) ++
        ' ' :: (['}'] ++ []))) := by
    simp [Service.spelled, String.toList_join, List.flatMap_map]
  have block : Spaced (service.dependencies.flatMap Dependency.tokens ++ [['}']])
      ((service.dependencies.flatMap fun dependency => dependency.spelled.toList) ++ ' ' :: (['}'] ++ [])) :=
    spaced_append.mpr ⟨_, _, rfl, spaced_dependencies service.dependencies, spaced_space (.done rfl)⟩
  rw [text]
  exact .block spellable.provider spellable.dependencies spellable.distinct (spaced_space (spaced_space block))

theorem spaced_name (sigil : Char) (name : String) : Spaced [sigil :: name.toList] (sigil :: name.toList ++ [' ']) :=
  @Spaced.token [] (sigil :: name.toList) [' '] [] rfl (.done (by decide))

theorem spelled_binding {row : String × Variable} (declarable : Declarable row.1) (spellable : row.2.Spellable) :
    IsDeclaration (spelledBinding row).toList (.assign row.1 row.2.assignment) := by
  have split : (spelledBinding row).toList =
      ('$' :: row.1.toList ++ [' ']) ++ '=' :: ' ' :: row.2.spelled.toList := by
    simp [spelledBinding]
  have apart := name_apart declarable.named '=' (by decide)
  exact .assign split (by simp [apart]) (spaced_name '$' row.1) declarable (spelled_assignment spellable)

theorem spelled_serving {row : String × Service} (declarable : Declarable row.1) (spellable : row.2.Spellable) :
    IsDeclaration (spelledService row).toList (.serve row.1 row.2) := by
  have split : (spelledService row).toList =
      ('@' :: row.1.toList ++ [' ']) ++ '=' :: ' ' :: row.2.spelled.toList := by
    simp [spelledService]
  have apart := name_apart declarable.named '=' (by decide)
  exact .serve split (by simp [apart]) (spaced_name '@' row.1) declarable (spelled_service spellable)

end Meanings

structure LineEnd (text : List Char) : Prop where
  some_text : text ≠ []
  plain : '\n' ∉ text
  last : ∀ c ∈ text.getLast?, isBlank c = false ∧ c ≠ continuation

structure DataLine (line : Line) : Prop where
  ended : LineEnd line
  sigil : ∃ rest, line = '$' :: rest ∨ line = '@' :: rest

section Lines
variable {line front back : List Char}

theorem LineEnd.append (ended : LineEnd back) (plain : '\n' ∉ front) : LineEnd (front ++ back) := by
  refine ⟨by simp [ended.some_text], by simp [plain, ended.plain], fun c closing => ended.last c ?_⟩
  rw [List.getLast?_append] at closing
  cases last : back.getLast? with
  | none => exact absurd (List.getLast?_eq_none_iff.mp last) ended.some_text
  | some d => rwa [last] at closing

theorem lineEnd_mark {mark : Char} (solid : isBlank mark = false) (other : mark ≠ continuation) :
    LineEnd [mark] := by
  refine ⟨by simp, ?_, fun c closing => ?_⟩
  · rw [List.mem_singleton]
    rintro rfl
    exact absurd solid (by decide)
  · cases closing
    exact ⟨solid, other⟩

theorem lineEnd_name {name : String} (named : isName name.toList = true) : LineEnd name.toList := by
  refine ⟨name_ne_nil named, name_apart named '\n' (by decide), fun c closing => ?_⟩
  refine ⟨(solid_name named).last c closing, ?_⟩
  rintro rfl
  exact name_apart named continuation (by decide) (List.mem_of_mem_getLast? closing)

theorem lineEnd_variable {meaning : Variable} (spellable : meaning.Spellable) :
    LineEnd meaning.spelled.toList := by
  cases spellable with
  | @constant value plain =>
    have text : (Variable.constant value).spelled.toList = ('\'' :: value.toList) ++ ['\''] := by
      simp [Variable.spelled]
    rw [text]
    exact (lineEnd_mark (by decide) (by decide)).append (by simp [plain])
  | @reference service field owner output =>
    have text : (Variable.reference service field).spelled.toList =
        (field.toList ++ [' ', '<', '-', ' ', '@']) ++ service.toList := by
      simp [Variable.spelled]
    rw [text]
    exact (lineEnd_name owner).append (by simp [name_apart output '\n' (by decide)])

theorem plain_dependencies {dependencies : List Dependency}
    (named : ∀ dependency ∈ dependencies, dependency.Named) :
    '\n' ∉ dependencies.flatMap fun dependency => dependency.spelled.toList := by
  rw [List.mem_flatMap]
  rintro ⟨dependency, listed, member⟩
  have argument := name_apart (named dependency listed).argument '\n' (by decide)
  have source := name_apart (named dependency listed).source '\n' (by decide)
  simp [Dependency.spelled, argument, source] at member

theorem plain_provider {provider : String} (named : isProviderName provider.toList = true) :
    '\n' ∉ provider.toList := by
  obtain ⟨c, rest, spelled, upper, letters⟩ := isProviderName_iff.mp named
  have solid := fun d later => not_blank_of_isAlphanum (letters d later)
  rw [spelled]
  intro member
  rcases List.mem_cons.mp member with rfl | later
  · exact absurd upper (by decide)
  · exact absurd (solid '\n' later) (by decide)

theorem lineEnd_service {service : Service} (spellable : service.Spellable) :
    LineEnd service.spelled.toList := by
  have text : service.spelled.toList = (service.provider.toList ++ ' ' :: '{' ::
      ((service.dependencies.flatMap fun dependency => dependency.spelled.toList) ++ [' '])) ++ ['}'] := by
    simp [Service.spelled, String.toList_join, List.flatMap_map]
  rw [text]
  refine (lineEnd_mark (by decide) (by decide)).append ?_
  simp [plain_provider spellable.provider, plain_dependencies spellable.dependencies]

theorem spelled_dataLine {context : Context} (spellable : context.Spellable) {text : String}
    (listed : text ∈ context.spelled) : DataLine text.toList := by
  rcases List.mem_append.mp listed with binding | serving
  · obtain ⟨row, member, rfl⟩ := List.mem_map.mp binding
    obtain ⟨declarable, meaning⟩ := spellable.bindings row member
    have whole : (spelledBinding row).toList =
        ('$' :: row.1.toList ++ [' ', '=', ' ']) ++ row.2.spelled.toList := by
      simp [spelledBinding]
    rw [whole]
    exact ⟨(lineEnd_variable meaning).append (by simp [name_apart declarable.named '\n' (by decide)]), _, Or.inl rfl⟩
  · obtain ⟨row, member, rfl⟩ := List.mem_map.mp serving
    obtain ⟨declarable, service⟩ := spellable.services row member
    have whole : (spelledService row).toList =
        ('@' :: row.1.toList ++ [' ', '=', ' ']) ++ row.2.spelled.toList := by
      simp [spelledService]
    rw [whole]
    exact ⟨(lineEnd_service service).append (by simp [name_apart declarable.named '\n' (by decide)]), _, Or.inr rfl⟩

theorem DataLine.visible (data : DataLine line) : isIgnorable line = false := by
  obtain ⟨_, rest, rfl | rfl⟩ := data <;> rfl

theorem DataLine.untagged (data : DataLine line) {tag : Line} (hash : tag.head? = some '#') : ¬ tag <+: line := by
  rintro ⟨rest, rfl⟩
  obtain ⟨_, other, same | same⟩ := data <;> cases tag <;> simp_all

theorem DataLine.closes (data : DataLine line) : Closes line line := by
  refine ⟨⟨⟨?_, fun c closing => (data.ended.last c closing).1⟩, [], [], rfl, rfl, by simp⟩, ?_⟩
  · obtain ⟨_, rest, rfl | rfl⟩ := data
    · simp; decide
    · simp; decide
  · intro closing
    exact (data.ended.last continuation closing).2 rfl

end Lines

theorem assemble_dataLines {rows : List (Nat × Line)} (data : ∀ row ∈ rows, DataLine row.2) :
    assemble rows = rows.map fun row => ⟨row.1, row.2⟩ := by
  unfold assemble
  induction rows with
  | nil => rfl
  | cons row rest ih =>
    rw [List.forall_mem_cons] at data
    rw [assembleFrom_closes data.1.visible data.1.closes rfl, ih data.2, List.map_cons, List.nil_append,
      trims_exact.mp data.1.closes.1]

end WiredViews
