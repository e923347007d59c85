import WiredViews.Proofs.WellFormedTemplates

-- Every declaration fits on one line, so a region can be written anew with any declarations in it.
namespace WiredViews

structure Retold (above : List Line) (header : Line) (below : List Line) (other : String) (region : List Line)
    (texts : List (List Char)) : Prop where
  framed : Framed (splitLines other.toList) above header region below
  declared : regionTexts region = texts

section Writing
variable {text : List Char} {declaration : Declaration}

theorem spaced_last {tokens : List (List Char)} {token : List Char} (spaced : Spaced (tokens ++ [token]) text)
    (some_char : token ≠ []) (solid : ∀ c ∈ text.getLast?, isBlank c = false) : text.getLast? = token.getLast? := by
  obtain ⟨front, rest, rfl, _, single⟩ := spaced_append.mp spaced
  obtain ⟨blanks, after, _, rfl, last⟩ := spaced_cons.mp single
  rw [spaced_nil] at last
  rcases List.eq_nil_or_concat' after with rfl | ⟨more, c, rfl⟩
  · rw [List.append_nil, ← List.append_assoc, List.getLast?_append_of_ne_nil _ some_char]
  · have space := isAllBlank_iff.mp last c (by simp)
    rw [solid c (by simp)] at space
    cases space

theorem sigil_last {sigil : Char} {name : String} (named : isName name.toList = true) :
    (sigil :: name.toList).getLast? ≠ some continuation := by
  rw [List.getLast?_cons_of_ne_nil (name_ne_nil named)]
  exact fun last => name_apart named continuation (by decide) (List.mem_of_mem_getLast? last)

theorem provider_last {provider : String} (named : isProviderName provider.toList = true) :
    provider.toList.getLast? ≠ some continuation := by
  obtain ⟨c, rest, spelled, upper, letters⟩ := isProviderName_iff.mp named
  intro last
  have listed := List.mem_of_mem_getLast? last
  rw [spelled] at listed
  rcases List.mem_cons.mp listed with rfl | later
  · exact absurd upper (by decide)
  · exact absurd (letters continuation later) (by decide)

theorem assignment_tokens {assignment : Assignment} (value : IsAssignment text assignment) : ∃ tokens token,
    Spaced (tokens ++ [token]) text ∧ token ≠ [] ∧ token.getLast? ≠ some continuation := by
  cases value with
  | @literal value spaced =>
    refine ⟨[], _, spaced, by simp, ?_⟩
    rw [← List.cons_append, List.getLast?_concat]
    decide
  | reference output owner spaced => exact ⟨[_, _], _, spaced, by simp, sigil_last owner⟩
  | copy named spaced => exact ⟨[], _, spaced, by simp, sigil_last named⟩

theorem service_tokens {service : Service} (value : IsService text service) : ∃ tokens token,
    Spaced (tokens ++ [token]) text ∧ token ≠ [] ∧ token.getLast? ≠ some continuation := by
  cases value with
  | bare named spaced => exact ⟨[], _, spaced, provider_ne_nil named, provider_last named⟩
  | @block provider entries _ _ _ spaced =>
    exact ⟨provider.toList :: ['{'] :: entries.flatMap Dependency.tokens, ['}'], spaced, by simp, by simp [continuation]⟩

theorem declaration_tokens (spelled : IsDeclaration text declaration) : ∃ sigil name tokens token,
    (sigil = '$' ∨ sigil = '@') ∧ Spaced ((sigil :: name) :: tokens ++ [token]) text ∧ token ≠ [] ∧
      token.getLast? ≠ some continuation := by
  have joined : ∀ {left right identifier : List Char} {tokens : List (List Char)}, Spaced [identifier] left →
      Spaced tokens right → Spaced (identifier :: ['='] :: tokens) (left ++ '=' :: right) :=
    fun front back => spaced_append.mpr ⟨_, _, rfl, front, @Spaced.token [] ['='] _ _ rfl back⟩
  cases spelled with
  | assign split _ identifier _ value =>
    obtain ⟨tokens, token, spaced, some_char, other⟩ := assignment_tokens value
    exact ⟨'$', _, ['='] :: tokens, token, Or.inl rfl, split ▸ joined identifier spaced, some_char, other⟩
  | serve split _ identifier _ value =>
    obtain ⟨tokens, token, spaced, some_char, other⟩ := service_tokens value
    exact ⟨'@', _, ['='] :: tokens, token, Or.inr rfl, split ▸ joined identifier spaced, some_char, other⟩

theorem declaration_dataLine (spelled : IsDeclaration text declaration) (trimmed : trim text = text)
    (plain : '\n' ∉ text) : DataLine text := by
  obtain ⟨sigil, name, tokens, token, kind, spaced, some_char, other⟩ := declaration_tokens spelled
  have solid := (trims_exact.mpr trimmed).solid
  have last := spaced_last spaced some_char solid.last
  obtain ⟨blanks, rest, blank, rfl, _⟩ := spaced_cons.mp spaced
  refine ⟨⟨by simp, plain, fun c closing => ⟨solid.last c closing, ?_⟩⟩, ?_⟩
  · rintro rfl
    exact other (last ▸ closing)
  · cases blanks with
    | nil =>
      refine ⟨name ++ rest, ?_⟩
      rcases kind with rfl | rfl
      · exact Or.inl rfl
      · exact Or.inr rfl
    | cons c blanks =>
      have space := isAllBlank_iff.mp blank c (by simp)
      rw [solid.first c rfl] at space
      cases space

theorem regionTexts_dataLines {texts : List Line} (data : ∀ text ∈ texts, DataLine text) :
    regionTexts texts = texts := by
  have rows : ∀ row ∈ numberLines (· + 0) texts, DataLine row.2 := fun row listed => data row.2 (numbered_line listed)
  rw [← numberLines_texts 0 texts, ← assemble_texts, assemble_dataLines rows, List.map_map]
  rfl

theorem splitLines_written {lines : List Line} (some_line : lines ≠ []) (plain : ∀ line ∈ lines, '\n' ∉ line) :
    splitLines (['\r', '\n'].intercalate lines) = lines := by
  induction lines with
  | nil => exact absurd rfl some_line
  | cons line rest ih =>
    rw [List.forall_mem_cons] at plain
    cases rest with
    | nil => simpa using splitLines_last plain.1
    | cons next rest =>
      rw [List.intercalate_cons_cons, List.append_assoc, List.cons_append, List.singleton_append,
        splitLines_carriage plain.1, ih (by simp) plain.2]

end Writing

section Regions
variable {text : String} {above region below : List Line} {header : Line}

theorem Framed.dataLines {declarations : List Declaration}
    (framed : Framed (splitLines text.toList) above header region below)
    (spelled : List.Forall₂ IsDeclaration (regionTexts region) declarations) :
    ∀ text ∈ regionTexts region, DataLine text := by
  obtain ⟨_, _, plain, _⟩ := framed.plain
  intro declared listed
  obtain ⟨declaration, _, given⟩ := forall₂_right spelled.flip declared listed
  exact declaration_dataLine given (regionTexts_trimmed region declared listed) (regionTexts_lack plain declared listed)

theorem Framed.retold {texts : List (List Char)} (framed : Framed (splitLines text.toList) above header region below)
    (data : ∀ text ∈ texts, DataLine text) : ∃ other, Retold above header below other texts texts := by
  obtain ⟨before, head, _, after⟩ := framed.plain
  have plain : ∀ line ∈ above ++ header :: (texts ++ below), '\n' ∉ line := by
    simp only [List.forall_mem_append, List.forall_mem_cons]
    exact ⟨before, head, fun text listed => (data text listed).ended.plain, after⟩
  have lines := splitLines_written (by simp) plain
  refine ⟨String.ofList (['\r', '\n'].intercalate (above ++ header :: (texts ++ below))), ?_, regionTexts_dataLines data⟩
  rw [String.toList_ofList, lines]
  refine ⟨rfl, framed.header, framed.above, fun text listed => ?_, framed.single, framed.titled⟩
  exact ⟨(data text listed).untagged rfl, (data text listed).untagged rfl⟩

end Regions
end WiredViews
