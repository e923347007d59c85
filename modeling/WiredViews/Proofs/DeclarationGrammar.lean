import WiredViews.Proofs.BlockSearch

namespace WiredViews

inductive IsAssignment (text : List Char) : Assignment → Prop where
  | literal {value : String} (spaced : Spaced ['\'' :: (value.toList ++ ['\''])] text) :
      IsAssignment text (.literal value)
  | reference {service field : String} (output : isName field.toList = true)
      (owner : isName service.toList = true)
      (spaced : Spaced [field.toList, ['<', '-'], '@' :: service.toList] text) :
      IsAssignment text (.reference service field)
  | copy {target : String} (named : isName target.toList = true) (spaced : Spaced ['$' :: target.toList] text) :
      IsAssignment text (.copy target)

inductive IsService (text : List Char) : Service → Prop where
  | bare {provider : String} (named : isProviderName provider.toList = true)
      (spaced : Spaced [provider.toList] text) : IsService text ⟨provider, []⟩
  | block {provider : String} {entries : List Dependency} (named : isProviderName provider.toList = true)
      (spelled : ∀ entry ∈ entries, entry.Named) (distinct : (entries.map Dependency.argument).Nodup)
      (spaced : Spaced (provider.toList :: ['{'] :: (entries.flatMap Dependency.tokens ++ [['}']])) text) :
      IsService text ⟨provider, entries⟩

structure Declarable (name : String) : Prop where
  named : isName name.toList = true
  free : ¬ reservedStart.toList <+: name.toList

theorem declarable_iff {name : String} : Declarable name ↔
    isName name.toList = true ∧ startsWith reservedStart.toList name.toList = false := by
  rw [Bool.eq_false_iff, ne_eq, startsWith_iff]
  constructor
  · intro given
    exact ⟨given.named, given.free⟩
  · intro given
    exact ⟨given.1, given.2⟩

-- The first equals sign parts a declaration; the sigil on its left says what it declares.
inductive IsDeclaration (text : List Char) : Declaration → Prop where
  | assign {left right : List Char} {name : String} {assignment : Assignment}
      (split : text = left ++ '=' :: right) (first : '=' ∉ left) (identifier : Spaced ['$' :: name.toList] left)
      (declarable : Declarable name) (value : IsAssignment right assignment) :
      IsDeclaration text (.assign name assignment)
  | serve {left right : List Char} {name : String} {service : Service}
      (split : text = left ++ '=' :: right) (first : '=' ∉ left) (identifier : Spaced ['@' :: name.toList] left)
      (declarable : Declarable name) (value : IsService right service) : IsDeclaration text (.serve name service)

section Readers
variable {text : List Char}

theorem readLiteral_eq_some {value : List Char} :
    readLiteral text = some value ↔ text = '\'' :: (value ++ ['\'']) := by
  constructor
  · intro found
    unfold readLiteral at found
    split at found
    · rename_i rest
      split at found
      · rename_i closed
        cases found
        obtain ⟨value, rfl⟩ := List.getLast?_eq_some_iff.mp closed
        simp
      · cases found
    · cases found
  · rintro rfl
    simp [readLiteral]

theorem readLiteral_eq_none {c : Char} {rest : List Char} (other : c ≠ '\'') :
    readLiteral (c :: rest) = none := by
  unfold readLiteral
  split
  · rename_i equal
    exact absurd (List.cons.inj equal).1 other
  · rfl

theorem readCopy_eq_some {name : List Char} :
    readCopy text = some name ↔ text = '$' :: name ∧ isName name = true := by
  unfold readCopy
  split
  · rename_i rest
    simp only [List.cons.injEq, true_and]
    constructor
    · intro found
      split at found
      · rename_i named
        cases found
        exact ⟨rfl, named⟩
      · cases found
    · intro given
      obtain ⟨rfl, named⟩ := given
      rw [if_pos named]
  · rename_i other
    constructor
    · intro found
      cases found
    · intro given
      obtain ⟨rfl, _⟩ := given
      exact absurd rfl (other name)

theorem readReference_eq_some {service field : List Char} :
    readReference text = some (service, field) ↔ isName field = true ∧ isName service = true ∧
      ∃ second third, isAllBlank second = true ∧ isAllBlank third = true ∧
        text = field ++ (second ++ '<' :: '-' :: (third ++ '@' :: service)) := by
  constructor
  · intro found
    simp only [readReference, Option.bind_eq_bind, Option.pure_def, Option.bind_eq_some_iff] at found
    obtain ⟨⟨name, left⟩, taken, rest, arrow, owner, sigil, last⟩ := found
    split at last
    · rename_i named
      cases last
      obtain ⟨second, two, split⟩ := skipBlanks_split left
      obtain ⟨third, three, splitRest⟩ := skipBlanks_split rest
      rw [takeMark_eq_some.mp arrow] at split
      rw [takeMark_eq_some.mp sigil] at splitRest
      refine ⟨isName_of_takeName taken, named, second, third, two, three, ?_⟩
      rw [takeName_split taken, split, splitRest]
      simp
    · cases last
  · intro given
    obtain ⟨output, owner, second, third, two, three, rfl⟩ := given
    have stop : ∀ c ∈ (second ++ '<' :: '-' :: (third ++ '@' :: service)).head?, isNameChar c = false :=
      stops_name two (by decide)
    have arrow : skipBlanks (second ++ '<' :: '-' :: (third ++ '@' :: service)) =
        ['<', '-'] ++ (third ++ '@' :: service) := skipBlanks_mark two (by decide)
    have sigil : skipBlanks (third ++ '@' :: service) = ['@'] ++ service := skipBlanks_mark three (by decide)
    simp only [readReference, Option.bind_eq_bind, Option.bind_some, Option.pure_def, takeName_append output stop,
      arrow, sigil, takeMark_append, owner, if_true]

def blockText : Option (List Char) → List Char
  | none => []
  | some inside => '{' :: (inside ++ ['}'])

theorem provider_sound {provider : List Char} {block : Option (List Char)}
    (found : readProvider text = some (provider, block)) : isProviderName provider = true ∧
      ∃ blanks, isAllBlank blanks = true ∧ text = provider ++ (blanks ++ blockText block) := by
  cases text with
  | nil => cases found
  | cons c rest =>
    simp only [readProvider] at found
    split at found
    · rename_i upper
      have named : isProviderName (c :: rest.takeWhile Char.isAlphanum) = true :=
        isProviderName_iff.mpr ⟨c, _, rfl, upper, takeWhile_inside rest⟩
      obtain ⟨blanks, blank, split⟩ := skipBlanks_split (rest.dropWhile Char.isAlphanum)
      have whole : c :: rest = (c :: rest.takeWhile Char.isAlphanum) ++
          (blanks ++ skipBlanks (rest.dropWhile Char.isAlphanum)) := by
        rw [← split, List.cons_append, List.takeWhile_append_dropWhile]
      split at found
      · rename_i alone
        cases found
        rw [alone] at whole
        exact ⟨named, blanks, blank, whole⟩
      · rename_i inside opened
        split at found
        · rename_i closed
          cases found
          obtain ⟨content, rfl⟩ := List.getLast?_eq_some_iff.mp closed
          refine ⟨named, blanks, blank, ?_⟩
          rw [whole, opened]
          simp [blockText]
        · cases found
      · cases found
    · cases found

theorem provider_complete {provider blanks : List Char} {block : Option (List Char)}
    (named : isProviderName provider = true) (blank : isAllBlank blanks = true) :
    readProvider (provider ++ (blanks ++ blockText block)) = some (provider, block) := by
  obtain ⟨c, letters, rfl, upper, all⟩ := isProviderName_iff.mp named
  have stop : ∀ c ∈ (blanks ++ blockText block).head?, c.isAlphanum = false := by
    refine stops_after_blanks (fun _ => not_blank_of_isAlphanum) blank ?_
    cases block <;> simp [blockText]
  have opened : skipBlanks (blanks ++ blockText block) = blockText block := by
    refine skipBlanks_append blank ?_
    cases block with
    | none => simp [blockText]
    | some inside =>
      intro c first
      cases first
      decide
  simp only [List.cons_append, readProvider, upper, if_true, takeWhile_stretch all stop,
    dropWhile_stretch all stop, opened]
  cases block <;> simp [blockText]

theorem readProvider_eq_some {provider : List Char} {block : Option (List Char)} :
    readProvider text = some (provider, block) ↔ isProviderName provider = true ∧
      ∃ blanks, isAllBlank blanks = true ∧ text = provider ++ (blanks ++ blockText block) := by
  constructor
  · exact provider_sound
  · intro given
    obtain ⟨named, blanks, blank, rfl⟩ := given
    exact provider_complete named blank

theorem readIdentifier_eq_some {isService : Bool} {name : List Char} :
    readIdentifier text = some (isService, name) ↔
      isName name = true ∧ text = (if isService then '@' else '$') :: name := by
  constructor
  · intro found
    unfold readIdentifier at found
    split at found
    · split at found
      · rename_i named
        cases found
        exact ⟨named, rfl⟩
      · cases found
    · split at found
      · rename_i named
        cases found
        exact ⟨named, rfl⟩
      · cases found
    · cases found
  · intro given
    obtain ⟨named, rfl⟩ := given
    cases isService <;> simp [readIdentifier, named]

end Readers

section Shapes
variable {text : List Char}

theorem spaced_reference {service field : List Char} (output : isName field = true)
    (owner : isName service = true) : Spaced [field, ['<', '-'], '@' :: service] text ↔
      ∃ second third, isAllBlank second = true ∧ isAllBlank third = true ∧
        trim text = field ++ (second ++ '<' :: '-' :: (third ++ '@' :: service)) := by
  constructor
  · intro spaced
    simp only [spaced_cons, spaced_nil] at spaced
    obtain ⟨first, _, one, rfl, second, _, two, rfl, third, last, three, rfl, four⟩ := spaced
    refine ⟨second, third, two, three, ?_⟩
    have solid : Solid (field ++ ((second ++ '<' :: '-' :: third) ++ '@' :: service)) :=
      solid_of_ends (solid_name output) (solid_sigil (by decide) owner) (name_ne_nil output) (by simp)
    have trimmed := trim_around one four solid
    simpa using trimmed
  · intro given
    obtain ⟨second, third, two, three, split⟩ := given
    refine spaced_of_trim ?_
    rw [split]
    simp only [spaced_cons, spaced_nil]
    exact ⟨[], _, rfl, rfl, second, _, two, rfl, third, [], three, by simp, rfl⟩

theorem spaced_block {provider : List Char} {tokens : List (List Char)} (named : isProviderName provider = true) :
    Spaced (provider :: ['{'] :: (tokens ++ [['}']])) text ↔ ∃ blanks inside, isAllBlank blanks = true ∧
      Spaced tokens inside ∧ trim text = provider ++ (blanks ++ '{' :: (inside ++ ['}'])) := by
  constructor
  · intro spaced
    obtain ⟨first, _, one, rfl, fromBrace⟩ := spaced_cons.mp spaced
    obtain ⟨blanks, _, two, rfl, inBlock⟩ := spaced_cons.mp fromBrace
    obtain ⟨front, _, rfl, entries, toBrace⟩ := spaced_append.mp inBlock
    simp only [spaced_cons, spaced_nil] at toBrace
    obtain ⟨third, last, three, rfl, four⟩ := toBrace
    refine ⟨blanks, front ++ third, two, ?_, ?_⟩
    · rw [← List.append_nil tokens]
      exact spaced_append.mpr ⟨front, third, rfl, entries, .done three⟩
    · have brace : Solid ['}'] := ⟨by simp; decide, by simp; decide⟩
      have solid : Solid (provider ++ ((blanks ++ '{' :: (front ++ third)) ++ ['}'])) :=
        solid_of_ends (solid_provider named) brace (provider_ne_nil named) (by simp)
      have trimmed := trim_around one four solid
      simpa using trimmed
  · intro given
    obtain ⟨blanks, inside, blank, entries, split⟩ := given
    refine spaced_of_trim ?_
    rw [split]
    refine spaced_cons.mpr ⟨[], _, rfl, rfl, spaced_cons.mpr ⟨blanks, _, blank, rfl, ?_⟩⟩
    refine spaced_append.mpr ⟨inside, _, rfl, entries, spaced_cons.mpr ⟨[], [], rfl, rfl, .done rfl⟩⟩

end Shapes

section Exactness
variable {text : List Char}

theorem assignment_sound {assignment : Assignment} (read : readAssignment (trim text) = .ok assignment) :
    IsAssignment text assignment := by
  unfold readAssignment at read
  cases literal : readLiteral (trim text) with
  | some value =>
    rw [literal] at read
    cases read
    refine .literal ((spaced_single (solid_quoted _)).mpr ?_)
    rw [String.toList_ofList]
    exact readLiteral_eq_some.mp literal
  | none =>
    rw [literal] at read
    cases reference : readReference (trim text) with
    | some pair =>
      obtain ⟨service, field⟩ := pair
      rw [reference] at read
      cases read
      obtain ⟨output, owner, shape⟩ := readReference_eq_some.mp reference
      refine .reference ?_ ?_ ?_ <;> simp only [String.toList_ofList]
      · exact output
      · exact owner
      · exact (spaced_reference output owner).mpr shape
    | none =>
      rw [reference] at read
      cases copy : readCopy (trim text) with
      | some target =>
        rw [copy] at read
        cases read
        obtain ⟨shape, named⟩ := readCopy_eq_some.mp copy
        refine .copy ?_ ?_ <;> simp only [String.toList_ofList]
        · exact named
        · exact (spaced_single (solid_sigil (by decide) named)).mpr shape
      | none =>
        rw [copy] at read
        cases read

theorem assignment_complete {assignment : Assignment} (value : IsAssignment text assignment) :
    readAssignment (trim text) = .ok assignment := by
  cases value with
  | @literal value spaced =>
    have literal := readLiteral_eq_some.mpr ((spaced_single (solid_quoted _)).mp spaced)
    simp only [readAssignment, literal, String.ofList_toList]
  | @reference service field output owner spaced =>
    have shape := (spaced_reference output owner).mp spaced
    have reference := readReference_eq_some.mpr ⟨output, owner, shape⟩
    have literal : readLiteral (trim text) = none := by
      obtain ⟨_, _, _, _, split⟩ := shape
      obtain ⟨c, rest, spelled, lower, _⟩ := isName_iff.mp output
      rw [split, spelled]
      refine readLiteral_eq_none fun same => ?_
      rw [same] at lower
      cases lower
    simp only [readAssignment, literal, reference, String.ofList_toList]
  | @copy target named spaced =>
    have shape := (spaced_single (solid_sigil (by decide) named)).mp spaced
    have literal : readLiteral (trim text) = none := by
      rw [shape]
      exact readLiteral_eq_none (by decide)
    have reference : readReference (trim text) = none := by
      rw [shape]
      rfl
    have copy := readCopy_eq_some.mpr ⟨shape, named⟩
    simp only [readAssignment, literal, reference, copy, String.ofList_toList]

theorem readAssignment_exact {assignment : Assignment} :
    readAssignment (trim text) = .ok assignment ↔ IsAssignment text assignment :=
  ⟨assignment_sound, assignment_complete⟩

theorem service_sound {name : String} {service : Service} (read : readService name (trim text) = .ok service) :
    IsService text service := by
  unfold readService at read
  cases found : readProvider (trim text) with
  | none =>
    rw [found] at read
    cases read
  | some pair =>
    obtain ⟨provider, block⟩ := pair
    rw [found] at read
    obtain ⟨named, blanks, blank, split⟩ := readProvider_eq_some.mp found
    cases block with
    | none =>
      cases read
      refine .bare ?_ ?_ <;> simp only [String.toList_ofList]
      · exact named
      · refine spaced_of_trim (spaced_cons.mpr ⟨[], blanks, rfl, ?_, .done blank⟩)
        simpa [blockText] using split
    | some inside =>
      dsimp only at read
      split at read
      · rename_i accepted
        obtain ⟨entries, spelled, spaced⟩ := isServiceBlock_iff.mp accepted
        rw [blockEntries_eq spelled spaced] at read
        split at read
        · cases read
        · rename_i fresh
          cases read
          refine .block ?_ spelled (firstRepeated_eq_none.mp fresh) ?_ <;> simp only [String.toList_ofList]
          · exact named
          · exact (spaced_block named).mpr ⟨blanks, inside, blank, spaced, split⟩
      · cases read

theorem service_complete {name : String} {service : Service} (value : IsService text service) :
    readService name (trim text) = .ok service := by
  cases value with
  | @bare provider named spaced =>
    have shape := (spaced_single (solid_provider named)).mp spaced
    have found : readProvider (trim text) = some (provider.toList, none) :=
      readProvider_eq_some.mpr ⟨named, [], rfl, by simpa [blockText] using shape⟩
    simp only [readService, found, String.ofList_toList]
  | @block provider entries named spelled distinct spaced =>
    obtain ⟨blanks, inside, blank, row, split⟩ := (spaced_block named).mp spaced
    have found : readProvider (trim text) = some (provider.toList, some inside) :=
      readProvider_eq_some.mpr ⟨named, blanks, blank, split⟩
    have accepted := isServiceBlock_iff.mpr ⟨entries, spelled, row⟩
    simp only [readService, found, accepted, if_true, blockEntries_eq spelled row,
      firstRepeated_eq_none.mpr distinct, String.ofList_toList]

theorem readService_exact {name : String} {service : Service} :
    readService name (trim text) = .ok service ↔ IsService text service :=
  ⟨service_sound, service_complete⟩

theorem map_eq_ok {ε α β : Type} {change : α → β} {outcome : Except ε α} {value : β} :
    outcome.map change = .ok value ↔ ∃ before, outcome = .ok before ∧ change before = value := by
  cases outcome <;> simp [Except.map]

theorem identifier_exact {isService : Bool} {name : List Char} : readIdentifier (trim text) = some (isService, name) ↔
    isName name = true ∧ Spaced [(if isService then '@' else '$') :: name] text := by
  rw [readIdentifier_eq_some]
  refine and_congr_right fun named => (spaced_single (solid_sigil ?_ named)).symm
  cases isService <;> decide

theorem declaration_sound {declaration : Declaration} (read : Declaration.read text = .ok declaration) :
    IsDeclaration text declaration := by
  unfold Declaration.read at read
  cases cut : cutAt '=' text with
  | none =>
    rw [cut] at read
    cases read
  | some sides =>
    obtain ⟨left, right⟩ := sides
    obtain ⟨split, first⟩ := cutAt_eq_some.mp cut
    rw [cut] at read
    dsimp only at read
    cases identifier : readIdentifier (trim left) with
    | none =>
      rw [identifier] at read
      cases read
    | some found =>
      obtain ⟨isService, letters⟩ := found
      obtain ⟨named, spaced⟩ := identifier_exact.mp identifier
      rw [identifier] at read
      dsimp only at read
      split at read
      · cases read
      · rename_i free
        have declarable : Declarable (String.ofList letters) := by
          rw [declarable_iff, String.toList_ofList]
          exact ⟨named, Bool.eq_false_iff.mpr free⟩
        rw [← @String.toList_ofList letters] at spaced
        cases isService with
        | true =>
          obtain ⟨service, value, rfl⟩ := map_eq_ok.mp read
          exact .serve split first spaced declarable (readService_exact.mp value)
        | false =>
          obtain ⟨assignment, value, rfl⟩ := map_eq_ok.mp read
          exact .assign split first spaced declarable (readAssignment_exact.mp value)

theorem declaration_complete {declaration : Declaration} (value : IsDeclaration text declaration) :
    Declaration.read text = .ok declaration := by
  have cut : ∀ left right, text = left ++ '=' :: right → '=' ∉ left → cutAt '=' text = some (left, right) :=
    fun _ _ split first => cutAt_eq_some.mpr ⟨split, first⟩
  cases value with
  | @assign left right name assignment split first identifier declarable value =>
    have found := (@identifier_exact left false name.toList).mpr ⟨declarable.named, identifier⟩
    have free := (declarable_iff.mp declarable).2
    simp only [Declaration.read, cut left right split first, found, free, readAssignment_exact.mpr value,
      String.ofList_toList, Bool.false_eq_true, if_false, Except.map]
  | @serve left right name service split first identifier declarable value =>
    have found := (@identifier_exact left true name.toList).mpr ⟨declarable.named, identifier⟩
    have free := (declarable_iff.mp declarable).2
    simp only [Declaration.read, cut left right split first, found, free, readService_exact.mpr value,
      String.ofList_toList, Bool.false_eq_true, if_false, if_true, Except.map]

theorem declaration_exact {declaration : Declaration} :
    Declaration.read text = .ok declaration ↔ IsDeclaration text declaration :=
  ⟨declaration_sound, declaration_complete⟩

end Exactness
end WiredViews
