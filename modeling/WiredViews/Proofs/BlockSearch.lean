import WiredViews.Declaration
import WiredViews.Proofs.BlockEntries
import WiredViews.Proofs.FirstItem
import WiredViews.Proofs.Sightings

-- A service block is accepted as a whole, and its entries are searched for anywhere in it. The
-- search knows nothing of the whole, but it leaves nothing of an accepted block except white
-- space, and it leaves something else of any other.
namespace WiredViews

structure Dependency.WrittenAs (entry : Dependency) (token : List Char) : Prop where
  named : entry.Named
  spelled : ∃ second third fourth, isAllBlank second = true ∧ isAllBlank third = true ∧ isAllBlank fourth = true ∧
    token = entry.argument.toList ++ (second ++ '=' :: (third ++ '$' :: (entry.source.toList ++ (fourth ++ [';']))))

section Written
variable {entry : Dependency} {token left text : List Char}

theorem Dependency.WrittenAs.first (written : entry.WrittenAs token) :
    ∃ c rest, token = c :: rest ∧ c.isLower = true := by
  obtain ⟨named, second, third, fourth, _, _, _, rfl⟩ := written
  obtain ⟨c, letters, spelled, lower, _⟩ := isName_iff.mp named.argument
  exact ⟨c, _, by rw [spelled]; rfl, lower⟩

theorem Dependency.WrittenAs.ne_nil (written : entry.WrittenAs token) : token ≠ [] := by
  obtain ⟨c, rest, rfl, _⟩ := written.first
  exact List.cons_ne_nil c rest

theorem Dependency.WrittenAs.last (written : entry.WrittenAs token) : token.getLast? = some ';' := by
  obtain ⟨_, second, third, fourth, _, _, _, rfl⟩ := written
  simp [List.getLast?_append, List.getLast?_cons]

theorem Dependency.WrittenAs.spaced {gap : List Char} (blank : isAllBlank gap = true)
    (written : entry.WrittenAs token) : Spaced entry.tokens (gap ++ token) := by
  obtain ⟨_, second, third, fourth, two, three, four, rfl⟩ := written
  exact spaced_entry.mpr ⟨gap, second, third, fourth, [], blank, two, three, four, rfl, rfl⟩

theorem Dependency.Named.written (named : entry.Named) (spaced : Spaced entry.tokens text) : ∃ gap token last,
    isAllBlank gap = true ∧ entry.WrittenAs token ∧ isAllBlank last = true ∧ text = gap ++ (token ++ last) := by
  obtain ⟨gap, second, third, fourth, last, one, two, three, four, five, rfl⟩ := spaced_entry.mp spaced
  exact ⟨gap, _, last, one, ⟨named, second, third, fourth, two, three, four, rfl⟩, five, by simp⟩

theorem count_blanks {blanks : List Char} (blank : isAllBlank blanks = true) : blanks.count ';' = 0 := by
  apply List.count_eq_zero_of_not_mem
  intro member
  have space := isAllBlank_iff.mp blank ';' member
  revert space
  decide

theorem Dependency.WrittenAs.counted (written : entry.WrittenAs token) : token.count ';' = 1 := by
  obtain ⟨named, second, third, fourth, two, three, four, rfl⟩ := written
  have argument := List.count_eq_zero_of_not_mem (name_apart named.argument ';' (by decide))
  have source := List.count_eq_zero_of_not_mem (name_apart named.source ';' (by decide))
  simp [List.count_append, argument, source, count_blanks two, count_blanks three, count_blanks four]

theorem entryPattern_written (written : entry.WrittenAs token) (left : List Char) :
    entryPattern (token ++ left) = some (entry, left) := by
  obtain ⟨named, second, third, fourth, two, three, four, rfl⟩ := written
  have equals : ∀ rest, takeMark ['='] ('=' :: rest) = some rest := takeMark_append ['=']
  have sigil : ∀ rest, takeMark ['$'] ('$' :: rest) = some rest := takeMark_append ['$']
  have semicolon : ∀ rest, takeMark [';'] (';' :: rest) = some rest := takeMark_append [';']
  have argument : ∀ rest, takeName (entry.argument.toList ++ (second ++ '=' :: rest)) =
      some (entry.argument.toList, second ++ '=' :: rest) :=
    fun rest => takeName_append named.argument (stops_name two (by decide))
  have source : ∀ rest, takeName (entry.source.toList ++ (fourth ++ ';' :: rest)) =
      some (entry.source.toList, fourth ++ ';' :: rest) :=
    fun rest => takeName_append named.source (stops_name four (by decide))
  have skips : ∀ blanks mark rest, isAllBlank blanks = true → isBlank mark = false →
      skipBlanks (blanks ++ mark :: rest) = mark :: rest := fun _ _ _ => skipBlanks_mark
  simp only [List.append_assoc, List.cons_append, List.nil_append, entryPattern, Option.bind_eq_bind,
    Option.bind_some, Option.pure_def, argument, source, equals, sigil, semicolon, skips _ '=' _ two (by decide),
    skips _ '$' _ three (by decide), skips _ ';' _ four (by decide), String.ofList_toList]

theorem entryPattern_iff :
    entryPattern text = some (entry, left) ↔ ∃ token, entry.WrittenAs token ∧ text = token ++ left := by
  constructor
  · intro found
    simp only [entryPattern, Option.bind_eq_bind, Option.pure_def, Option.bind_eq_some_iff, Option.some.injEq,
      Prod.mk.injEq, Prod.exists] at found
    obtain ⟨argument, afterArgument, taken, afterEquals, equals, afterSigil, sigil, source, afterSource, retaken,
      _, semicolon, rfl, rfl⟩ := found
    obtain ⟨second, two, first⟩ := skipBlanks_split afterArgument
    obtain ⟨third, three, middle⟩ := skipBlanks_split afterEquals
    obtain ⟨fourth, four, final⟩ := skipBlanks_split afterSource
    rw [takeMark_eq_some.mp equals] at first
    rw [takeMark_eq_some.mp sigil] at middle
    rw [takeMark_eq_some.mp semicolon] at final
    refine ⟨_, ⟨⟨?_, ?_⟩, second, third, fourth, two, three, four, rfl⟩, ?_⟩
    · simpa using isName_of_takeName taken
    · simpa using isName_of_takeName retaken
    · rw [takeName_split taken, first, middle, takeName_split retaken, final]
      simp
  · rintro ⟨token, written, rfl⟩
    exact entryPattern_written written left

theorem entryPattern_blank {c : Char} (blank : isBlank c = true) (rest : List Char) :
    entryPattern (c :: rest) = none := by
  cases lower : c.isLower with
  | false => simp [entryPattern, takeName, lower]
  | true =>
    have solid := not_blank_of_isNameChar (isNameChar_of_isLower lower)
    rw [blank] at solid
    cases solid

end Written

inductive Filled : Nat → List (Sighting Dependency) → List Char → Prop where
  | rest {place : Nat} {text : List Char} (blank : isAllBlank text = true) : Filled place [] text
  | entry {place : Nat} {gap token rest : List Char} {entry : Dependency} {later : List (Sighting Dependency)}
      (blank : isAllBlank gap = true) (written : entry.WrittenAs token)
      (tail : Filled (place + gap.length + token.length) later rest) :
      Filled place (⟨entry, place + gap.length, place + gap.length + token.length⟩ :: later) (gap ++ (token ++ rest))

def BlankOutside (place : Nat) (seen : List (Sighting Dependency)) (text : List Char) : Prop :=
  ∀ offset c, text[offset]? = some c → (∀ sighting ∈ seen, ¬ sighting.Covers (place + offset)) → isBlank c = true

section Filled
variable {place : Nat} {seen : List (Sighting Dependency)} {text blanks : List Char}

theorem sightings_blanks (blank : isAllBlank blanks = true) (rest : List Char) (place : Nat) :
    sightingsFrom entryPattern place 0 (blanks ++ rest) =
      sightingsFrom entryPattern (place + blanks.length) 0 rest := by
  induction blanks generalizing place with
  | nil => rfl
  | cons c blanks ih =>
    simp only [isAllBlank, List.all_cons, Bool.and_eq_true] at blank
    have later := ih blank.2 (place + 1)
    rw [Nat.add_right_comm, Nat.add_assoc] at later
    rw [List.cons_append, sightings_missed (entryPattern_blank blank.1 _)]
    exact later

theorem Filled.sightings (filled : Filled place seen text) : sightingsFrom entryPattern place 0 text = seen := by
  induction filled with
  | @rest place text blank =>
    have nothing := sightings_blanks blank [] place
    rw [List.append_nil] at nothing
    rw [nothing]
    rfl
  | @entry place gap token rest entry later blank written _ ih =>
    rw [sightings_blanks blank, sightings_token written.ne_nil (entryPattern_written written rest), ih]

theorem Filled.after_blanks (blank : isAllBlank blanks = true)
    (filled : Filled (place + blanks.length) seen text) : Filled place seen (blanks ++ text) := by
  generalize behind : place + blanks.length = start at filled
  cases filled with
  | rest all => exact .rest (isAllBlank_append.mpr ⟨blank, all⟩)
  | @entry _ gap token rest entry later space written tail =>
    have further : start + gap.length = place + (blanks ++ gap).length := by
      rw [List.length_append, ← behind, Nat.add_assoc]
    rw [further] at tail ⊢
    rw [← List.append_assoc]
    exact .entry (isAllBlank_append.mpr ⟨blank, space⟩) written tail

theorem Filled.spaced (filled : Filled place seen text) : (∀ entry ∈ seen.map Sighting.item, Dependency.Named entry) ∧
    Spaced ((seen.map Sighting.item).flatMap Dependency.tokens) text := by
  induction filled with
  | rest blank => exact ⟨by simp, .done blank⟩
  | @entry place gap token rest entry later blank written _ ih =>
    obtain ⟨others, tail⟩ := ih
    refine ⟨List.forall_mem_cons.mpr ⟨written.named, others⟩, ?_⟩
    rw [← List.append_assoc]
    exact spaced_append.mpr ⟨_, rest, rfl, written.spaced blank, tail⟩

theorem filled_of_spaced {entries : List Dependency} (named : ∀ entry ∈ entries, entry.Named)
    (spaced : Spaced (entries.flatMap Dependency.tokens) text) (place : Nat) :
    ∃ seen, Filled place seen text ∧ seen.map Sighting.item = entries := by
  induction entries generalizing text place with
  | nil => exact ⟨[], .rest (spaced_nil.mp spaced), rfl⟩
  | cons entry entries ih =>
    obtain ⟨here, others⟩ := List.forall_mem_cons.mp named
    obtain ⟨_, rest, rfl, front, tail⟩ := spaced_append.mp spaced
    obtain ⟨gap, token, last, before, written, after, rfl⟩ := here.written front
    obtain ⟨later, filled, items⟩ := ih others (tail.after_blanks after) (place + gap.length + token.length)
    have whole := Filled.entry before written filled
    rw [List.append_assoc, List.append_assoc]
    exact ⟨_, whole, congrArg (entry :: ·) items⟩

theorem blockEntries_eq {entries : List Dependency} (named : ∀ entry ∈ entries, entry.Named)
    (spaced : Spaced (entries.flatMap Dependency.tokens) text) : blockEntries text = entries := by
  obtain ⟨seen, filled, rfl⟩ := filled_of_spaced named spaced 0
  exact (finds_sightings entryPattern text).trans (congrArg _ filled.sightings)

theorem Filled.counted (filled : Filled place seen text) : seen.length = text.count ';' := by
  induction filled with
  | rest blank => exact (count_blanks blank).symm
  | entry blank written _ ih =>
    rw [List.count_append, List.count_append, count_blanks blank, written.counted, ← ih, List.length_cons]
    omega

theorem Filled.outside (filled : Filled place seen text) : BlankOutside place seen text := by
  induction filled with
  | rest blank =>
    intro offset c here _
    exact isAllBlank_iff.mp blank c (List.mem_of_getElem? here)
  | @entry place gap token rest entry later blank written _ ih =>
    intro offset c here apart
    obtain ⟨head, behind⟩ := List.forall_mem_cons.mp apart
    by_cases before : offset < gap.length
    · rw [List.getElem?_append_left before] at here
      exact isAllBlank_iff.mp blank c (List.mem_of_getElem? here)
    · rw [List.getElem?_append_right (by omega)] at here
      by_cases inside : offset - gap.length < token.length
      · exact absurd ⟨by dsimp only; omega, by dsimp only; omega⟩ head
      · rw [List.getElem?_append_right (by omega)] at here
        have same : place + gap.length + token.length + (offset - gap.length - token.length) = place + offset := by
          omega
        apply ih _ c here
        rwa [same]

theorem Filled.standing (filled : Filled place seen text) {front : List Char} (size : front.length = place)
    (stops : ∀ c ∈ front.getLast?, isNameChar c = false) {sighting : Sighting Dependency} (listed : sighting ∈ seen) :
    ∃ before token after, front ++ text = before ++ (token ++ after) ∧ sighting.start = before.length ∧
      sighting.stop = before.length + token.length ∧ sighting.item.WrittenAs token ∧
      ∀ c ∈ before.getLast?, isNameChar c = false := by
  induction filled generalizing front with
  | rest => cases listed
  | @entry place gap token rest entry later blank written _ ih =>
    rcases List.mem_cons.mp listed with rfl | behind
    · refine ⟨front ++ gap, token, rest, by simp, by simp [size], by simp [size], written, ?_⟩
      intro c last
      rw [List.getLast?_append] at last
      cases spaced : gap.getLast? with
      | none =>
        rw [spaced] at last
        exact stops c last
      | some d =>
        rw [spaced] at last
        cases last
        exact not_isNameChar_of_blank (isAllBlank_iff.mp blank c (List.mem_of_getLast? spaced))
    · have further : (front ++ (gap ++ token)).length = place + gap.length + token.length := by
        simp only [List.length_append, size]
        omega
      have marked : ∀ c ∈ (front ++ (gap ++ token)).getLast?, isNameChar c = false := by
        intro c last
        rw [List.getLast?_append, List.getLast?_append, written.last] at last
        cases last
        decide
      have later := ih further marked behind
      simpa only [List.append_assoc] using later

theorem BlankOutside.missed {c : Char} {rest : List Char} (missed : entryPattern (c :: rest) = none)
    (outside : BlankOutside place (sightingsFrom entryPattern place 0 (c :: rest)) (c :: rest)) :
    isBlank c = true ∧ BlankOutside (place + 1) (sightingsFrom entryPattern (place + 1) 0 rest) rest := by
  rw [sightings_missed missed] at outside
  constructor
  · apply outside 0 c rfl
    intro sighting seen covers
    have later := (sightings_within seen).1
    have early := covers.1
    omega
  · intro offset d here apart
    apply outside (offset + 1) d here
    rwa [← Nat.add_assoc, Nat.add_right_comm]

theorem BlankOutside.behind {entry : Dependency} {token left : List Char} {later : List (Sighting Dependency)}
    (outside : BlankOutside place (⟨entry, place, place + token.length⟩ :: later) (token ++ left)) :
    BlankOutside (place + token.length) later left := by
  intro offset d here apart
  apply outside (token.length + offset) d
  · rw [List.getElem?_append_right (by omega), Nat.add_sub_cancel_left]
    exact here
  · refine List.forall_mem_cons.mpr ⟨?_, ?_⟩
    · intro covers
      have stop := covers.2
      dsimp only at stop
      omega
    · rwa [← Nat.add_assoc]

-- The induction is on the length of the text, as the search goes on behind what it finds.
theorem filled_of_outside (text : List Char) (place : Nat)
    (outside : BlankOutside place (sightingsFrom entryPattern place 0 text) text) :
    Filled place (sightingsFrom entryPattern place 0 text) text := by
  induction size : text.length using Nat.strongRecOn generalizing text place with
  | _ size ih =>
    cases text with
    | nil => exact .rest rfl
    | cons c rest =>
      cases found : entryPattern (c :: rest) with
      | none =>
        obtain ⟨blank, tail⟩ := outside.missed found
        have space : isAllBlank [c] = true := by simpa [isAllBlank] using blank
        have filled := ih rest.length (by rw [← size]; simp) rest (place + 1) tail rfl
        rw [sightings_missed found]
        exact Filled.after_blanks space filled
      | some got =>
        obtain ⟨entry, left⟩ := got
        obtain ⟨token, written, split⟩ := entryPattern_iff.mp found
        have some_token := List.length_pos_iff.mpr written.ne_nil
        rw [split] at found outside size ⊢
        rw [sightings_token written.ne_nil found] at outside ⊢
        have filled := ih left.length (by rw [← size, List.length_append]; omega) left _ outside.behind rfl
        exact @Filled.entry place [] token left entry _ rfl written filled

theorem filled_exact {inside : List Char} :
    isServiceBlock inside = true ↔ Filled 0 (sightings entryPattern inside) inside := by
  constructor
  · intro accepted
    obtain ⟨entries, named, spaced⟩ := isServiceBlock_iff.mp accepted
    obtain ⟨seen, filled, _⟩ := filled_of_spaced named spaced 0
    have same : sightings entryPattern inside = seen := filled.sightings
    rwa [same]
  · intro filled
    exact isServiceBlock_iff.mpr ⟨_, filled.spaced⟩

end Filled

-- What the search makes of a block, place by place, and what comes of it when a service is read.
structure SearchedThrough (inside : List Char) : Prop where
  apart : (sightings entryPattern inside).Pairwise fun first second => first.stop ≤ second.start
  outside : ∀ place c, inside[place]? = some c →
    (∀ sighting ∈ sightings entryPattern inside, ¬ sighting.Covers place) → isBlank c = true
  standing : ∀ sighting ∈ sightings entryPattern inside, ∃ before token after,
    inside = before ++ (token ++ after) ∧ sighting.start = before.length ∧
    sighting.stop = before.length + token.length ∧ sighting.item.WrittenAs token ∧
    ∀ c ∈ before.getLast?, isNameChar c = false
  counted : (sightings entryPattern inside).length = inside.count ';'
  entries : ∀ entries : List Dependency, (∀ entry ∈ entries, entry.Named) ∧
    Spaced (entries.flatMap Dependency.tokens) inside ↔ entries = (sightings entryPattern inside).map Sighting.item
  extracted : ∀ name text provider service, readProvider text = some (provider, some inside) →
    (readService name text = .ok service ↔
      ((sightings entryPattern inside).map fun sighting => sighting.item.argument).Nodup ∧
        service = ⟨String.ofList provider, (sightings entryPattern inside).map Sighting.item⟩)

theorem extracted_entries {inside : List Char} (accepted : isServiceBlock inside = true) {name : String}
    {text provider : List Char} {service : Service} (block : readProvider text = some (provider, some inside)) :
    readService name text = .ok service ↔ ((blockEntries inside).map Dependency.argument).Nodup ∧
      service = ⟨String.ofList provider, blockEntries inside⟩ := by
  simp only [readService, block, accepted, if_true, ← firstRepeated_eq_none]
  cases firstRepeated ((blockEntries inside).map Dependency.argument) with
  | none => simp [eq_comm]
  | some argument => simp

theorem block_searched (inside : List Char) : isServiceBlock inside = true ↔ SearchedThrough inside := by
  constructor
  · intro accepted
    have filled := filled_exact.mp accepted
    have items : blockEntries inside = (sightings entryPattern inside).map Sighting.item :=
      finds_sightings entryPattern inside
    constructor
    case apart => exact sightings_apart entryPattern 0 0 inside
    case outside =>
      intro place c here apart
      apply filled.outside place c here
      rwa [Nat.zero_add]
    case standing => exact fun _ seen => @Filled.standing 0 _ inside filled [] rfl (by simp) _ seen
    case counted => exact filled.counted
    case entries =>
      intro entries
      constructor
      · intro given
        rw [← items]
        exact (blockEntries_eq given.1 given.2).symm
      · rintro rfl
        exact filled.spaced
    case extracted =>
      intro name text provider service block
      have read := @extracted_entries inside accepted name text provider service block
      rwa [items, List.map_map] at read
  · intro searched
    apply filled_exact.mpr
    apply filled_of_outside
    intro place c here apart
    rw [Nat.zero_add] at apart
    exact searched.outside place c here apart

example : ((sightings entryPattern "id_ = $user_;\u00a0from\t=$start ;to=$goal;".toList).map fun sighting =>
    (sighting.start, sighting.stop)) = [(0, 13), (14, 28), (28, 37)] := by decide +kernel

end WiredViews
