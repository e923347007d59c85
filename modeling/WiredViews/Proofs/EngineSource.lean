import WiredViews.Proofs.PlaceholderCuts
import WiredViews.Proofs.Slots

namespace WiredViews

def SourceToken.source : SourceToken → List Char
  | .brace => braceToken
  | .entry name => entryToken name

def SourceToken.Named : SourceToken → Prop
  | .brace => True
  | .entry name => isName name.toList = true

-- Every line ending comes out as a line feed.
inductive Unified : List Char → List Char → Prop where
  | nothing : Unified [] []
  | pair {rest shown : List Char} (tail : Unified rest shown) : Unified ('\r' :: '\n' :: rest) ('\n' :: shown)
  | single {rest shown : List Char} (alone : ∀ more, rest ≠ '\n' :: more) (tail : Unified rest shown) :
      Unified ('\r' :: rest) ('\n' :: shown)
  | other {c : Char} {rest shown : List Char} (plain : c ≠ '\r') (tail : Unified rest shown) :
      Unified (c :: rest) (c :: shown)

-- Sources that are written in the two constructs and text without an opening brace, with
-- what is to come out. A stretch of text goes up to the next construct, as a line ending
-- could be made of two characters.
inductive Emits (entries : String → List Char) : List Char → List Char → Prop where
  | nothing : Emits entries [] []
  | brace {rest output : List Char} (tail : Emits entries rest output) :
      Emits entries ("\x7b\x7b '\x7b' \x7d\x7d".toList ++ rest) ('{' :: output)
  | entry {name : String} {rest output : List Char} (named : isName name.toList = true)
      (tail : Emits entries rest output) :
      Emits entries ("\x7b\x7b record['".toList ++ name.toList ++ "'] \x7d\x7d".toList ++ rest)
        (entries name ++ output)
  | stretch {stretch shown rest output : List Char} (plain : '{' ∉ stretch) (stops : ∀ c ∈ rest.head?, c = '{')
      (unified : Unified stretch shown) (tail : Emits entries rest output) :
      Emits entries (stretch ++ rest) (shown ++ output)

def told (entries : String → List Char) : Segment SourceToken → List Char
  | .plain stretch => stretch
  | .found .brace => ['{']
  | .found (.entry name) => entries name

-- Nothing is said of sources with anything else in them.
def Engine.Faithful (engine : Engine) : Prop :=
  ∀ source, (∃ entries output, Emits entries source output) → ∃ pieces, engine source = .ok pieces ∧
    ∀ entries output, Emits entries source output → pieces.flatMap (told entries) = output

section Newlines
variable {front rest : List Char}

theorem unify_front (plain : '\r' ∉ front) : unifyNewlines (front ++ rest) = front ++ unifyNewlines rest := by
  induction front with
  | nil => rfl
  | cons c front ih =>
    rw [List.mem_cons, not_or] at plain
    rw [List.cons_append, unifyNewlines, ih plain.2, List.cons_append]
    · rintro rest rfl
      exact absurd rfl plain.1
    · rintro rfl
      exact absurd rfl plain.1

theorem unify_append (apart : '\n' ∉ rest.head?) :
    unifyNewlines (front ++ rest) = unifyNewlines front ++ unifyNewlines rest := by
  fun_induction unifyNewlines front with
  | case1 => rfl
  | case2 front ih => simp only [List.cons_append, unifyNewlines, ih]
  | case3 front single ih =>
    have lone : ∀ more, front ++ rest = '\n' :: more → False := by
      intro more split
      cases front with
      | nil => exact apart (by rw [show rest = _ from split]; rfl)
      | cons d front => exact single front (by rw [(List.cons.inj split).1])
    rw [List.cons_append, unifyNewlines.eq_3 _ lone, ih, List.cons_append]
  | case4 c front unpaired lone ih =>
    rw [List.cons_append, unifyNewlines, ih, List.cons_append]
    · rintro more rfl
      exact fun _ => lone rfl
    · exact lone

theorem unify_exact {shown : List Char} : Unified front shown ↔ shown = unifyNewlines front := by
  constructor
  · intro unified
    induction unified with
    | nothing => rfl
    | pair _ ih => rw [ih, unifyNewlines]
    | single alone _ ih => rw [ih, unifyNewlines.eq_3 _ alone]
    | other plain _ ih => rw [ih, unifyNewlines.eq_4 _ _ (fun _ same => absurd same plain) plain]
  · rintro rfl
    fun_induction unifyNewlines front with
    | case1 => exact .nothing
    | case2 rest ih => exact .pair ih
    | case3 rest alone ih => exact .single alone ih
    | case4 c rest _ lone ih => exact .other lone ih

theorem mem_unify {c : Char} (listed : c ∈ unifyNewlines front) : c = '\n' ∨ c ∈ front := by
  fun_induction unifyNewlines front <;> grind

end Newlines

section Views
variable {entries : String → List Char}

theorem literal_plain {stretch : List Char} (plain : '{' ∉ stretch) : literalSource stretch = stretch := by
  unfold literalSource
  induction stretch with
  | nil => rfl
  | cons c stretch ih =>
    rw [List.mem_cons, not_or] at plain
    rw [List.flatMap_cons, if_neg (Ne.symm plain.1), ih plain.2, List.singleton_append]

theorem literal_brace {before after : List Char} (plain : '{' ∉ before) :
    literalSource (before ++ '{' :: after) = before ++ (braceToken ++ literalSource after) := by
  have first : literalSource before = before := literal_plain plain
  unfold literalSource at first ⊢
  rw [List.flatMap_append, first, List.flatMap_cons, if_pos rfl]

theorem source_stops (token : SourceToken) (rest : List Char) : ∀ c ∈ (token.source ++ rest).head?, c = '{' := by
  have opening : (token.source ++ rest).head? = some '{' := by cases token <;> rfl
  intro c first
  exact (Option.some.inj (opening.symm.trans first)).symm

theorem emits_literal {stretch rest output : List Char} (stops : ∀ c ∈ rest.head?, c = '{')
    (tail : Emits entries rest output) :
    Emits entries (literalSource stretch ++ rest) (unifyNewlines stretch ++ output) := by
  induction size : stretch.length using Nat.strongRecOn generalizing stretch with
  | _ size ih =>
    by_cases plain : '{' ∈ stretch
    · obtain ⟨before, after, rfl, first⟩ := List.eq_append_cons_of_mem plain
      rw [List.length_append, List.length_cons] at size
      have further := ih after.length (by omega) rfl
      have whole := Emits.stretch first (source_stops .brace _) (unify_exact.mpr rfl) (.brace further)
      rw [literal_brace first, List.append_assoc, List.append_assoc, unify_append (by simp), ← List.singleton_append,
        unify_front (by simp), List.append_assoc, List.append_assoc]
      exact whole
    · rw [literal_plain plain]
      exact .stretch plain stops (unify_exact.mpr rfl) tail

theorem source_stretch (stretch : List Char) (pieces : List (Segment String)) :
    (stretch.foldr Segment.consChar pieces).flatMap segmentSource =
      literalSource stretch ++ pieces.flatMap segmentSource :=
  flatMap_stretch (fun _ _ => by simp [segmentSource, literalSource]) rfl stretch pieces

theorem viewSource_last {stretch : List Char} (silent : Silent stretch []) :
    viewSource stretch = literalSource stretch := by
  rw [viewSource, viewSegments_last silent, source_stretch]
  exact List.append_nil _

theorem viewSource_mark {stretch token rest : List Char} {name : String} (silent : Silent stretch (token ++ rest))
    (marks : Marks name token) :
    viewSource (stretch ++ (token ++ rest)) = literalSource stretch ++ (entryToken name ++ viewSource rest) := by
  rw [viewSource, viewSegments_mark silent marks, source_stretch]
  rfl

inductive FilledIn (style : ViewStyle) (mode : RenderMode) (record : Record) (last : List Char) :
    List (List Char × String) → List Char → Prop where
  | last {shown : List Char} (unified : Unified last shown) : FilledIn style mode record last [] shown
  | row {stretch literal slot shown : List Char} {name : String} {rows : List (List Char × String)}
      (unified : Unified stretch literal) (shows : Slot style ((record.get? name).getD .null) mode slot)
      (tail : FilledIn style mode record last rows shown) :
      FilledIn style mode record last ((stretch, name) :: rows) (literal ++ (slot ++ shown))

theorem exists_filledIn (style : ViewStyle) (mode : RenderMode) (record : Record) (last : List Char)
    (rows : List (List Char × String)) : ∃ shown, FilledIn style mode record last rows shown := by
  induction rows with
  | nil => exact ⟨_, .last (unify_exact.mpr rfl)⟩
  | cons row rows ih =>
    obtain ⟨shown, filled⟩ := ih
    exact ⟨_, .row (unify_exact.mpr rfl) (slot_exact.mpr rfl) filled⟩

theorem Cut.emits {style : ViewStyle} {mode : RenderMode} {record : Record} {text last shown : List Char}
    {rows : List (List Char × String)} (cut : Cut text rows last)
    (filled : FilledIn style mode record last rows shown) :
    Emits (fun name => slotText style mode (record.read name)) (viewSource text) shown := by
  induction cut generalizing shown with
  | @last stretch silent =>
    cases filled with
    | last unified =>
      have whole := @emits_literal (fun name => slotText style mode (record.read name)) stretch [] _ (by simp) .nothing
      rw [unify_exact.mp unified]
      rwa [List.append_nil, List.append_nil, ← viewSource_last silent] at whole
  | @mark stretch token rest last name rows silent marks tail ih =>
    cases filled with
    | row unified shows filled =>
      rw [viewSource_mark silent marks, unify_exact.mp unified, slot_exact.mp shows]
      exact emits_literal (source_stops (.entry name) _) (.entry marks.1 (ih filled))

end Views

section Reading
variable {entries : String → List Char} {token : SourceToken} {rest source output : List Char}

theorem tokenPattern_token (named : token.Named) : tokenPattern (token.source ++ rest) = some (token, rest) := by
  cases token with
  | brace => rw [tokenPattern, SourceToken.source, takeMark_append]
  | entry name =>
    have other : takeMark braceToken (entryToken name ++ rest) = none := rfl
    have opening : takeMark entryStart (entryToken name ++ rest) = some (name.toList ++ (entryEnd ++ rest)) := by
      rw [entryToken, List.append_assoc, List.append_assoc, takeMark_append]
    have taken : takeName (name.toList ++ (entryEnd ++ rest)) = some (name.toList, entryEnd ++ rest) :=
      takeName_append named (by intro c first; cases first; decide)
    simp only [tokenPattern, SourceToken.source, other, opening, taken, takeMark_append, Option.bind_eq_bind,
      Option.pure_def, Option.bind_some, String.ofList_toList]

theorem tokenPattern_plain {c : Char} (other : c ≠ '{') (rest : List Char) : tokenPattern (c :: rest) = none := by
  have brace : takeMark braceToken (c :: rest) = none := if_neg (Ne.symm other)
  have entry : takeMark entryStart (c :: rest) = none := if_neg (Ne.symm other)
  simp only [tokenPattern, brace, entry, Option.bind_eq_bind, Option.bind_none]

theorem braced_consChar (c : Char) (pieces : List (Segment SourceToken)) :
    (Segment.consChar c pieces).any hasOpenBrace = (decide (c = '{') || pieces.any hasOpenBrace) := by
  cases pieces with
  | nil => simp [Segment.consChar, hasOpenBrace, eq_comm]
  | cons piece pieces => cases piece <;> simp [Segment.consChar, hasOpenBrace, Bool.or_assoc, eq_comm]

theorem braced_stretch {stretch : List Char} (plain : '{' ∉ stretch) (pieces : List (Segment SourceToken)) :
    (stretch.foldr Segment.consChar pieces).any hasOpenBrace = pieces.any hasOpenBrace := by
  induction stretch with
  | nil => rfl
  | cons c stretch ih =>
    rw [List.mem_cons, not_or] at plain
    rw [List.foldr_cons, braced_consChar, decide_eq_false (Ne.symm plain.1), Bool.false_or, ih plain.2]

theorem unify_token (named : token.Named) :
    unifyNewlines (token.source ++ rest) = token.source ++ unifyNewlines rest := by
  refine unify_front ?_
  cases token with
  | brace => decide
  | entry name =>
    rw [SourceToken.source, entryToken, List.mem_append, List.mem_append, not_or, not_or]
    exact ⟨⟨by decide, name_apart named '\r' (by decide)⟩, by decide⟩

theorem segments_found (named : token.Named) : segments tokenPattern (unifyNewlines (token.source ++ rest)) =
    .found token :: segments tokenPattern (unifyNewlines rest) := by
  have some_token : token.source ≠ [] := by cases token <;> exact List.cons_ne_nil _ _
  rw [unify_token named, segments_token some_token (tokenPattern_token named)]

theorem segments_brace : segments tokenPattern (unifyNewlines ("\x7b\x7b '\x7b' \x7d\x7d".toList ++ rest)) =
    .found .brace :: segments tokenPattern (unifyNewlines rest) :=
  @segments_found .brace rest trivial

theorem segments_entry {name : String} (named : isName name.toList = true) :
    segments tokenPattern
      (unifyNewlines ("\x7b\x7b record['".toList ++ name.toList ++ "'] \x7d\x7d".toList ++ rest)) =
    .found (.entry name) :: segments tokenPattern (unifyNewlines rest) :=
  @segments_found (.entry name) rest named

theorem Emits.pieces (emits : Emits entries source output) :
    (segments tokenPattern (unifyNewlines source)).any hasOpenBrace = false ∧
      (segments tokenPattern (unifyNewlines source)).flatMap (told entries) = output := by
  induction emits with
  | nothing => exact ⟨rfl, rfl⟩
  | @brace rest output tail ih =>
    rw [segments_brace, List.flatMap_cons, ih.2]
    exact ⟨ih.1, rfl⟩
  | @entry name rest output named tail ih =>
    rw [segments_entry named, List.flatMap_cons, ih.2]
    exact ⟨ih.1, rfl⟩
  | @stretch stretch shown rest output plain stops unified tail ih =>
    obtain rfl := unify_exact.mp unified
    have apart : '\n' ∉ rest.head? := fun first => absurd (stops _ first) (by decide)
    have unbraced : '{' ∉ unifyNewlines stretch := fun listed =>
      (mem_unify listed).elim (by decide) plain
    have missed : ∀ front back, unifyNewlines stretch = front ++ back → back ≠ [] →
        tokenPattern (back ++ unifyNewlines rest) = none := by
      intro front back split some_left
      obtain ⟨c, more, rfl⟩ := List.exists_cons_of_ne_nil some_left
      refine tokenPattern_plain ?_ _
      rintro rfl
      exact unbraced (by rw [split]; simp)
    rw [unify_append apart, segments_stretch missed]
    refine ⟨by rw [braced_stretch unbraced, ih.1], ?_⟩
    rw [flatMap_stretch (fun _ _ => rfl) rfl, ih.2]
    rfl

theorem readSource_faithful : Engine.Faithful readSource := by
  intro source emitted
  obtain ⟨entries, output, emits⟩ := emitted
  refine ⟨_, ?_, fun entries output emits => emits.pieces.2⟩
  rw [readSource, emits.pieces.1]
  rfl

end Reading
end WiredViews
