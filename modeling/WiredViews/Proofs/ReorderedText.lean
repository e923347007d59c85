import WiredViews.Proofs.ReorderedRuns
import WiredViews.Proofs.TemplateGrammar

-- The lines of a data region may be put in any other order, if each declaration has a line of its
-- own, nothing is declared twice and nothing is copied: a copy takes what is known further up.
namespace WiredViews

def declarationOn? (line : Line) : Option Declaration :=
  if isIgnorable line then none else (Declaration.read (trim line)).toOption

def Declaration.subject : Declaration → Bool × String
  | .assign name _ => (false, name)
  | .serve name _ => (true, name)

def Declaration.binding? : Declaration → Option (String × Variable)
  | .assign name (.literal value) => some (name, .constant value)
  | .assign name (.reference service field) => some (name, .reference service field)
  | .assign _ (.copy _) => none
  | .serve _ _ => none

def Declaration.serving? : Declaration → Option (String × Service)
  | .assign _ _ => none
  | .serve name service => some (name, service)

structure Orderless (region : List Line) : Prop where
  single : ∀ line ∈ region, isIgnorable line = false → (trim line).getLast? ≠ some continuation
  once : ((region.filterMap declarationOn?).map Declaration.subject).Nodup
  uncopied : ∀ name target, Declaration.assign name (.copy target) ∉ region.filterMap declarationOn?

-- Two texts that differ in the order of the lines between the data header and the first view header.
inductive Rearranged (region shuffled : List Line) (text other : String) : Prop where
  | lines {above below : List Line} {header : Line} (headed : dataTag.toList <+: header)
      (untitled : ∀ line ∈ region, ¬ viewTag.toList <+: line) (titled : ∀ line ∈ below.head?, viewTag.toList <+: line)
      (order : region.Perm shuffled) (before : splitLines text.toList = above ++ header :: (region ++ below))
      (after : splitLines other.toList = above ++ header :: (shuffled ++ below)) :
      Rearranged region shuffled text other

section Symmetry
variable {region shuffled : List Line}

theorem Orderless.perm (orderless : Orderless region) (order : region.Perm shuffled) : Orderless shuffled where
  single line listed := orderless.single line (order.mem_iff.mpr listed)
  once := ((order.filterMap declarationOn?).map Declaration.subject).nodup_iff.mp orderless.once
  uncopied name target listed :=
    orderless.uncopied name target ((order.filterMap declarationOn?).mem_iff.mpr listed)

theorem Rearranged.order {text other : String} (rearranged : Rearranged region shuffled text other) :
    region.Perm shuffled := by
  cases rearranged
  assumption

theorem Rearranged.symm {text other : String} (rearranged : Rearranged region shuffled text other) :
    Rearranged shuffled region other text := by
  obtain ⟨headed, untitled, titled, order, before, after⟩ := rearranged
  exact .lines headed (fun line listed => untitled line (order.mem_iff.mpr listed)) titled order.symm after before

end Symmetry

section Declaring
variable {context whole : Context}

def Context.extended (context : Context) (declarations : List Declaration) : Context where
  bindings := context.bindings.insertAll (declarations.filterMap Declaration.binding?)
  services := context.services.insertAll (declarations.filterMap Declaration.serving?)

theorem declare_extended {declaration : Declaration}
    (uncopied : ∀ name target, declaration ≠ .assign name (.copy target)) :
    context.declare declaration = .ok (context.extended [declaration]) := by
  cases declaration with
  | serve name service => rfl
  | assign name assignment =>
    cases assignment with
    | literal value => rfl
    | reference service field => rfl
    | copy target => exact absurd rfl (uncopied name target)

theorem extended_cons (declaration : Declaration) (rest : List Declaration) :
    (context.extended [declaration]).extended rest = context.extended (declaration :: rest) := by
  unfold Context.extended
  rw [← Table.insertAll_append, ← Table.insertAll_append, ← List.filterMap_append, ← List.filterMap_append,
    List.singleton_append]

theorem declareAll_single {rows : List NumberedLine}
    (single : ∀ row ∈ rows, isIgnorable row.2 = false → (trim row.2).getLast? ≠ some continuation)
    (uncopied : ∀ row ∈ rows, ∀ name target, declarationOn? row.2 ≠ some (.assign name (.copy target))) :
    declareAll context (assemble rows) = .ok whole ↔
      (∀ row ∈ rows, isIgnorable row.2 = false → ∃ declaration, declarationOn? row.2 = some declaration) ∧
        context.extended (rows.filterMap fun row => declarationOn? row.2) = whole := by
  induction rows generalizing context with
  | nil =>
    change Except.ok context = .ok whole ↔ _
    simp [Context.extended, Table.insertAll]
  | cons row rest ih =>
    rw [List.forall_mem_cons] at single uncopied
    cases ignored : isIgnorable row.2 with
    | true =>
      have nothing : declarationOn? row.2 = none := by rw [declarationOn?, if_pos ignored]
      rw [assemble, assembleFrom_ignored ignored, List.forall_mem_cons, List.filterMap_cons, nothing]
      simp only [ignored, reduceCtorEq, false_implies, true_and]
      exact ih single.2 uncopied.2
    | false =>
      have closes : Closes row.2 (trim row.2) := ⟨trims_trim row.2, single.1 ignored⟩
      have here : declarationOn? row.2 = (Declaration.read (trim row.2)).toOption := by
        rw [declarationOn?, ignored]
        rfl
      rw [assemble, assembleFrom_closes ignored closes rfl, List.nil_append, trim_trim, List.forall_mem_cons]
      simp only [declareAll, declareText, ignored, true_implies]
      cases read : Declaration.read (trim row.2) with
      | error fault =>
        rw [read] at here
        simp [here, Except.toOption]
      | ok declaration =>
        rw [read] at here
        have known : ∃ declaration, declarationOn? row.2 = some declaration := ⟨declaration, here⟩
        have plain : ∀ name target, declaration ≠ .assign name (.copy target) :=
          fun name target same => uncopied.1 name target (same ▸ here)
        rw [List.filterMap_cons, here]
        simp only [declare_extended plain, Except.toOption, Option.some.injEq, exists_eq', true_and]
        have further := @ih (context.extended [declaration]) single.2 uncopied.2
        rwa [extended_cons] at further

theorem declareAll_region {rows : List NumberedLine} {region : List Line} (texts : rows.map Prod.snd = region)
    (orderless : Orderless region) : declareAll .empty (assemble rows) = .ok whole ↔
      (∀ line ∈ region, isIgnorable line = false → ∃ declaration, declarationOn? line = some declaration) ∧
        Context.empty.extended (region.filterMap declarationOn?) = whole := by
  subst texts
  rw [declareAll_single, List.forall_mem_map, List.filterMap_map]
  · rfl
  · exact fun row listed => orderless.single row.2 (List.mem_map_of_mem listed)
  · intro row listed name target copied
    exact orderless.uncopied name target (List.mem_filterMap.mpr ⟨row.2, List.mem_map_of_mem listed, copied⟩)

end Declaring

section Subjects
variable {declaration : Declaration} {declarations others : List Declaration}

theorem binding_subject {row : String × Variable} (bound : declaration.binding? = some row) :
    declaration.subject = (false, row.1) := by
  cases declaration with
  | serve name service => cases bound
  | assign name assignment =>
    cases assignment with
    | copy target => cases bound
    | literal value =>
      cases bound
      rfl
    | reference service field =>
      cases bound
      rfl

theorem serving_subject {row : String × Service} (served : declaration.serving? = some row) :
    declaration.subject = (true, row.1) := by
  cases declaration with
  | assign name assignment => cases served
  | serve name service =>
    cases served
    rfl

theorem subject_agree {α : Type} {kind : Bool} {meaning? : Declaration → Option (String × α)}
    (named : ∀ {declaration row}, meaning? declaration = some row → declaration.subject = (kind, row.1))
    (once : (declarations.map Declaration.subject).Nodup) : ∀ row ∈ declarations.filterMap meaning?,
      ∀ other ∈ declarations.filterMap meaning?, row.1 = other.1 → row.2 = other.2 := by
  intro row listed other member same
  obtain ⟨first, declared, mine⟩ := List.mem_filterMap.mp listed
  obtain ⟨second, redeclared, theirs⟩ := List.mem_filterMap.mp member
  have subjects : first.subject = second.subject := by rw [named mine, named theirs, same]
  have equal : first = second := List.inj_on_of_nodup_map once declared redeclared subjects
  rw [equal, theirs] at mine
  cases mine
  rfl

theorem extended_alike (once : (declarations.map Declaration.subject).Nodup) (order : declarations.Perm others) :
    (Context.empty.extended declarations).Alike (Context.empty.extended others) where
  bindings name := Table.get?_insertAll_perm (order.filterMap _) (subject_agree binding_subject once) name
  services name := Table.get?_insertAll_perm (order.filterMap _) (subject_agree serving_subject once) name

end Subjects

section Layouts
variable {rows before declarations views : List NumberedLine} {header : NumberedLine}

theorem split_tagged {tag : List Char} {front back other rest : List NumberedLine}
    (same : front ++ back = other ++ rest) (plain : ∀ row ∈ front, ¬ tag <+: row.2)
    (bare : ∀ row ∈ other, ¬ tag <+: row.2) (first : ∀ row ∈ back.head?, tag <+: row.2)
    (next : ∀ row ∈ rest.head?, tag <+: row.2) : front = other ∧ back = rest := by
  have taken : ∀ {front back : List NumberedLine}, (∀ row ∈ front, ¬ tag <+: row.2) →
      (∀ row ∈ back.head?, tag <+: row.2) → (front ++ back).takeWhile (fun row => !startsWith tag row.2) = front := by
    intro front back plain first
    apply takeWhile_stretch
    · intro row listed
      rw [Bool.not_eq_true', Bool.eq_false_iff]
      exact fun found => plain row listed (startsWith_iff.mp found)
    · intro row head
      rw [Bool.not_eq_false', startsWith_iff]
      exact first row head
  have fronts : front = other := by rw [← taken plain first, same, taken bare next]
  rw [fronts] at same
  exact ⟨fronts, List.append_cancel_left same⟩

theorem Layout.parts (layout : Layout rows before header declarations views)
    {above region below : List NumberedLine} {head : NumberedLine}
    (split : rows = above ++ head :: (region ++ below)) (headed : dataTag.toList <+: head.2)
    (untitled : ∀ row ∈ region, ¬ viewTag.toList <+: row.2)
    (titled : ∀ row ∈ below.head?, viewTag.toList <+: row.2) :
    above = before ∧ head = header ∧ region = declarations ∧ below = views := by
  obtain ⟨blanks, _, spelled⟩ := layout.header
  obtain ⟨title, more, rfl, marked⟩ := layout.titled
  have only := layout.only
  have bare := layout.untitled
  rw [List.forall_mem_append] at only bare
  have single := layout.dataHeads
  have found : isDataHead head.2 = true := isDataHead_iff.mpr headed
  rw [split, List.filter_append, List.filter_cons_of_pos (p := fun row : NumberedLine => isDataHead row.2) found,
    List.append_eq_singleton_iff] at single
  have nothing : ∀ row ∈ above, ¬ dataTag.toList <+: row.2 := by
    rcases single with ⟨none_above, _⟩ | ⟨_, none_left⟩
    · intro row listed tagged
      exact List.filter_eq_nil_iff.mp none_above row listed (isDataHead_iff.mpr tagged)
    · cases none_left
  obtain ⟨front, tail⟩ := split_tagged (split.symm.trans layout.rows) nothing only.1
    (by simpa using headed) (by simp [spelled])
  obtain ⟨mark, rest⟩ := List.cons.inj tail
  obtain ⟨middle, back⟩ := split_tagged rest untitled bare.2 titled (by simpa using marked)
  exact ⟨front, mark, middle, back⟩

theorem Layout.shuffle (layout : Layout rows before header declarations views) {others : List NumberedLine}
    (order : (declarations.map Prod.snd).Perm (others.map Prod.snd)) :
    Layout (before ++ header :: (others ++ views)) before header others views := by
  have listed : ∀ {tag : List Char}, (∀ row ∈ declarations, ¬ tag <+: row.2) → ∀ row ∈ others, ¬ tag <+: row.2 := by
    intro tag plain row member tagged
    obtain ⟨twin, twinned, same⟩ := List.mem_map.mp (order.mem_iff.mpr (List.mem_map_of_mem member))
    exact plain twin twinned (same ▸ tagged)
  have only := layout.only
  have bare := layout.untitled
  simp only [List.forall_mem_append] at only bare
  refine ⟨rfl, layout.header, ?_, ?_, layout.titled⟩
  · simp only [List.forall_mem_append]
    exact ⟨only.1, listed only.2.1, only.2.2⟩
  · rw [List.forall_mem_append]
    exact ⟨bare.1, listed bare.2⟩

end Layouts

section Reading
variable {region shuffled : List Line} {text other : String}

theorem numbered_head {start : Nat} {lines : List Line} :
    ∀ row ∈ (numberLines (· + start) lines).head?, row.2 ∈ lines.head? := by
  intro row first
  cases lines with
  | nil => cases first
  | cons line rest =>
    rw [numberLines_cons] at first
    cases first
    rfl

theorem Rearranged.layout (rearranged : Rearranged region shuffled text other)
    {before declarations views : List NumberedLine} {header : NumberedLine}
    (layout : Layout (numberedLines text.toList) before header declarations views) :
    declarations.map Prod.snd = region ∧ ∃ moved, moved.map Prod.snd = shuffled ∧
      Layout (numberedLines other.toList) before header moved views := by
  obtain @⟨above, below, head, headed, untitled, titled, order, lines, after⟩ := rearranged
  have numbered : ∀ middle : List Line, numberLines (· + 1) (above ++ head :: (middle ++ below)) =
      numberLines (· + 1) above ++ (1 + above.length, head) ::
        (numberLines (· + (1 + above.length + 1)) middle ++
          numberLines (· + (1 + above.length + 1 + middle.length)) below) := by
    intro middle
    rw [numberLines_append, numberLines_cons, numberLines_append]
  have split := numbered region
  rw [← lines] at split
  obtain ⟨rfl, rfl, rfl, rfl⟩ := layout.parts split headed
    (fun row listed => untitled row.2 (numbered_line listed)) fun row first => titled row.2 (numbered_head row first)
  refine ⟨numberLines_texts _ _, numberLines (· + (1 + above.length + 1)) shuffled, numberLines_texts _ _, ?_⟩
  unfold numberedLines
  rw [after, numbered, ← order.length_eq]
  apply layout.shuffle
  rw [numberLines_texts, numberLines_texts]
  exact order

theorem read_moved (rearranged : Rearranged region shuffled text other) (orderless : Orderless region)
    {template : Template} (read : Template.read text = .ok template) : ∃ twin, Template.read other = .ok twin ∧
      template.views = twin.views ∧ template.context.Alike twin.context := by
  obtain ⟨before, header, declarations, views, layout, viewed, declared⟩ := readLines_ok.mp (read_ok.mp read)
  obtain ⟨texts, moved, moved_texts, relaid⟩ := rearranged.layout layout
  obtain ⟨readable, whole⟩ := (declareAll_region texts orderless).mp declared
  have redeclared := (declareAll_region moved_texts (orderless.perm rearranged.order)).mpr
    ⟨fun line listed => readable line (rearranged.order.mem_iff.mpr listed), rfl⟩
  refine ⟨⟨template.views, .extended .empty (shuffled.filterMap declarationOn?)⟩,
    read_ok.mpr (readLines_ok.mpr ⟨_, _, _, _, relaid, viewed, redeclared⟩), rfl, ?_⟩
  rw [← whole]
  exact extended_alike orderless.once (rearranged.order.filterMap declarationOn?)

end Reading

structure Template.Alike (template twin : Template) : Prop where
  views : template.views = twin.views
  context : template.context.Alike twin.context
  plans : ∀ providers policy, Together Plan.Alike (Plan.build template.context providers policy)
    (Plan.build twin.context providers policy)
  runs : ∀ {providers policy plan copy world}, Plan.build template.context providers policy = .ok plan →
    Plan.build twin.context providers policy = .ok copy → template.context.Pure providers world →
    ∀ overrides tally later, Together (fun result outcome => result.values.Agree Eq outcome.values)
      (plan.run world overrides tally).result (copy.run world overrides later).result

theorem Context.Alike.templates {template twin : Template} (views : template.views = twin.views)
    (alike : template.context.Alike twin.context) : template.Alike twin where
  views := views
  context := alike
  plans providers policy := by
    apply together_of
    · intro plan accepted
      obtain ⟨plannable, same⟩ := build_accepts.mp accepted
      obtain ⟨_, timely⟩ := build_timely accepted
      rw [same] at timely ⊢
      exact ⟨_, build_accepts.mpr ⟨alike.plannable plannable, rfl⟩, alike.plans timely⟩
    · intro copy accepted
      obtain ⟨plannable, _⟩ := build_accepts.mp accepted
      exact ⟨_, build_accepts.mpr ⟨alike.symm.plannable plannable, rfl⟩⟩
  runs := by
    intro providers policy plan copy world accepted reaccepted pure overrides tally later
    obtain ⟨same, timely⟩ := build_timely accepted
    obtain ⟨copied, _⟩ := build_timely reaccepted
    rw [same] at timely ⊢
    rw [copied]
    exact alike.run timely pure overrides tally later

theorem read_rearranged {region shuffled : List Line} {text other : String}
    (rearranged : Rearranged region shuffled text other) (orderless : Orderless region) :
    Together Template.Alike (Template.read text) (Template.read other) := by
  apply together_of
  · intro template read
    obtain ⟨twin, reread, views, alike⟩ := read_moved rearranged orderless read
    exact ⟨twin, reread, alike.templates views⟩
  · intro twin read
    obtain ⟨template, reread, _⟩ := read_moved rearranged.symm (orderless.perm rearranged.order) read
    exact ⟨template, reread⟩

def returnTrip : List String :=
  ["$start = 'Oslo'", "@out = Trip \x7b from = $start; \x7d", "", "$stop = goal <- @out", "// And back again.",
    "@back = Trip \x7b from = $stop; \x7d"]

def tripText (declarations : List String) : String :=
  "#data\n" ++ String.join (declarations.map (· ++ "\n")) ++ "#view\nTo the stop:\n"

theorem returnTrip_reversed : ∃ template twin plan, Template.read (tripText returnTrip) = .ok template ∧
    Template.read (tripText returnTrip.reverse) = .ok twin ∧ template.context.services.keys = ["out", "back"] ∧
    twin.context.services.keys = ["back", "out"] ∧ Plan.build template.context railway .standard = .ok plan ∧
    template.Alike twin := by
  have rearranged : Rearranged (returnTrip.map String.toList) (returnTrip.reverse.map String.toList)
      (tripText returnTrip) (tripText returnTrip.reverse) := by
    apply @Rearranged.lines _ _ _ _ [] ["#view".toList, "To the stop:".toList, []] "#data".toList
    · decide
    · decide +kernel
    · intro line first
      cases first
      decide
    · exact (returnTrip.reverse_perm.map _).symm
    · decide +kernel
    · decide +kernel
  have declared : (returnTrip.map String.toList).filterMap declarationOn? =
      [.assign "start" (.literal "Oslo"), .serve "out" ⟨"Trip", [⟨"from", "start"⟩]⟩,
        .assign "stop" (.reference "out" "goal"), .serve "back" ⟨"Trip", [⟨"from", "stop"⟩]⟩] := by decide +kernel
  have orderless : Orderless (returnTrip.map String.toList) := by
    refine ⟨by decide +kernel, ?_, ?_⟩
    · rw [declared]
      decide
    · simp [declared]
  have together := read_rearranged rearranged orderless
  have here : (Template.read (tripText returnTrip)).toOption.map (fun template =>
      (template.context.services.keys, (Plan.build template.context railway .standard).toOption.isSome)) =
      some (["out", "back"], true) := by decide +kernel
  have there : (Template.read (tripText returnTrip.reverse)).toOption.map
      (fun template => template.context.services.keys) = some ["back", "out"] := by decide +kernel
  generalize Template.read (tripText returnTrip) = first at *
  generalize Template.read (tripText returnTrip.reverse) = second at *
  cases together with
  | refused => cases here
  | @accepted template twin alike =>
    obtain ⟨services, planned⟩ := Prod.mk.inj (Option.some.inj here)
    cases built : Plan.build template.context railway .standard with
    | error fault => simp [built, Except.toOption] at planned
    | ok plan => exact ⟨template, twin, plan, rfl, rfl, services, Option.some.inj there, built, alike⟩

end WiredViews
