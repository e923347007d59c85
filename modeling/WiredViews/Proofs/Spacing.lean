import WiredViews.Names

namespace WiredViews
section Spans
variable {α : Type} {inside : α → Bool} {front rest : List α}

theorem takeWhile_stretch (all : ∀ a ∈ front, inside a = true) (stop : ∀ a ∈ rest.head?, inside a = false) :
    (front ++ rest).takeWhile inside = front := by
  rw [List.takeWhile_append_of_pos all]
  cases rest with
  | nil => simp
  | cons a rest => simp [stop a (by simp)]

theorem dropWhile_stretch (all : ∀ a ∈ front, inside a = true) (stop : ∀ a ∈ rest.head?, inside a = false) :
    (front ++ rest).dropWhile inside = rest := by
  rw [List.dropWhile_append_of_pos all]
  cases rest with
  | nil => simp
  | cons a rest => simp [stop a (by simp)]

theorem dropWhile_stops (text : List α) : ∀ a ∈ (text.dropWhile inside).head?, inside a = false := by
  have stops := List.head?_dropWhile_not inside text
  intro a first
  rw [first] at stops
  simpa using stops

theorem takeWhile_inside (text : List α) : ∀ a ∈ text.takeWhile inside, inside a = true :=
  List.all_eq_true.mp List.all_takeWhile

end Spans

theorem isAllBlank_iff {text : List Char} : isAllBlank text = true ↔ ∀ c ∈ text, isBlank c = true :=
  List.all_eq_true

theorem isAllBlank_append {first second : List Char} :
    isAllBlank (first ++ second) = true ↔ isAllBlank first = true ∧ isAllBlank second = true := by
  simp [isAllBlank]

structure Solid (text : List Char) : Prop where
  first : ∀ c ∈ text.head?, isBlank c = false
  last : ∀ c ∈ text.getLast?, isBlank c = false

theorem solid_of_all {text : List Char} (all : ∀ c ∈ text, isBlank c = false) : Solid text :=
  ⟨fun c first => all c (List.mem_of_mem_head? first), fun c last => all c (List.mem_of_mem_getLast? last)⟩

section Letters
variable {letter : Char → Bool} (solid : ∀ c, letter c = true → isBlank c = false)
include solid

theorem not_letter_of_blank {c : Char} (blank : isBlank c = true) : letter c = false := by
  cases found : letter c with
  | false => rfl
  | true =>
    rw [solid c found] at blank
    cases blank

theorem stops_after_blanks {blanks rest : List Char} (blank : isAllBlank blanks = true)
    (stop : ∀ c ∈ rest.head?, letter c = false) : ∀ c ∈ (blanks ++ rest).head?, letter c = false := by
  intro c first
  cases blanks with
  | nil => exact stop c first
  | cons d blanks =>
    cases first
    exact not_letter_of_blank solid (isAllBlank_iff.mp blank c (by simp))

end Letters

structure Trims (text core : List Char) : Prop where
  solid : Solid core
  around : ∃ before after, isAllBlank before = true ∧ isAllBlank after = true ∧ text = before ++ (core ++ after)

theorem skipBlanks_append {blanks rest : List Char} (blank : isAllBlank blanks = true)
    (solid : ∀ c ∈ rest.head?, isBlank c = false) : skipBlanks (blanks ++ rest) = rest :=
  dropWhile_stretch (isAllBlank_iff.mp blank) solid

theorem skipBlanks_split (text : List Char) :
    ∃ blanks, isAllBlank blanks = true ∧ text = blanks ++ skipBlanks text :=
  ⟨text.takeWhile isBlank, List.all_takeWhile, List.takeWhile_append_dropWhile.symm⟩

theorem trimEnd_append {text blanks : List Char} (blank : isAllBlank blanks = true)
    (solid : ∀ c ∈ text.getLast?, isBlank c = false) : trimEnd (text ++ blanks) = text := by
  unfold trimEnd
  rw [List.reverse_append, dropWhile_stretch, List.reverse_reverse]
  · simpa [isAllBlank] using blank
  · rwa [List.head?_reverse]

theorem trimEnd_split (text : List Char) : ∃ blanks, isAllBlank blanks = true ∧ text = trimEnd text ++ blanks := by
  refine ⟨(text.reverse.takeWhile isBlank).reverse, by simp [isAllBlank], ?_⟩
  unfold trimEnd
  rw [← List.reverse_append, List.takeWhile_append_dropWhile, List.reverse_reverse]

theorem trimEnd_last (text : List Char) : ∀ c ∈ (trimEnd text).getLast?, isBlank c = false := by
  unfold trimEnd
  rw [List.getLast?_reverse]
  exact dropWhile_stops _

theorem trims_exact {text core : List Char} : Trims text core ↔ trim text = core := by
  constructor
  · intro given
    obtain ⟨solid, before, after, left, right, rfl⟩ := given
    unfold trim
    cases core with
    | nil =>
      have all : isAllBlank (before ++ after) = true := isAllBlank_append.mpr ⟨left, right⟩
      rw [List.nil_append, ← List.append_nil (before ++ after), skipBlanks_append all (by simp)]
      rfl
    | cons c core =>
      have first : ∀ d ∈ ((c :: core) ++ after).head?, isBlank d = false := by
        simpa using solid.first
      rw [skipBlanks_append left first, trimEnd_append right solid.last]
  · rintro rfl
    obtain ⟨before, left, split⟩ := skipBlanks_split text
    obtain ⟨after, right, rest⟩ := trimEnd_split (skipBlanks text)
    refine ⟨⟨fun c first => ?_, trimEnd_last _⟩, before, after, left, right, ?_⟩
    · have early : c ∈ (trimEnd (skipBlanks text) ++ after).head? := by
        rw [List.head?_append, ← trim, Option.mem_def.mp first]
        rfl
      exact skipBlanks_head text c (rest ▸ early)
    · rw [trim, ← rest, ← split]

theorem trims_trim (text : List Char) : Trims text (trim text) :=
  trims_exact.mpr rfl

theorem trim_trim (text : List Char) : trim (trim text) = trim text :=
  trims_exact.mp ⟨(trims_trim text).solid, [], [], rfl, rfl, by simp⟩

theorem trim_around {before core after : List Char} (left : isAllBlank before = true)
    (right : isAllBlank after = true) (solid : Solid core) : trim (before ++ (core ++ after)) = core :=
  trims_exact.mp ⟨solid, before, after, left, right, rfl⟩

theorem solid_of_ends {front middle back : List Char} (first : Solid front) (last : Solid back)
    (opens : front ≠ []) (closes : back ≠ []) : Solid (front ++ (middle ++ back)) := by
  constructor
  · obtain ⟨c, rest, rfl⟩ := List.exists_cons_of_ne_nil opens
    exact first.first
  · intro c closing
    refine last.last c ?_
    rw [← List.append_assoc, List.getLast?_append] at closing
    cases ended : back.getLast? with
    | none => exact absurd (List.getLast?_eq_none_iff.mp ended) closes
    | some d => rwa [ended] at closing

theorem trim_eq_nil {text : List Char} : trim text = [] ↔ isAllBlank text = true := by
  rw [← trims_exact]
  constructor
  · intro given
    obtain ⟨_, before, after, left, right, rfl⟩ := given
    exact isAllBlank_append.mpr ⟨left, right⟩
  · intro blank
    exact ⟨⟨by simp, by simp⟩, text, [], blank, rfl, by simp⟩

-- Tokens in a row, each with any white space before it, and any after the last.
inductive Spaced : List (List Char) → List Char → Prop where
  | done {blanks : List Char} (blank : isAllBlank blanks = true) : Spaced [] blanks
  | token {blanks token rest : List Char} {tokens : List (List Char)} (blank : isAllBlank blanks = true)
      (tail : Spaced tokens rest) : Spaced (token :: tokens) (blanks ++ (token ++ rest))

section Spaced
variable {text token : List Char} {tokens others : List (List Char)}

theorem spaced_nil : Spaced [] text ↔ isAllBlank text = true := by
  constructor
  · intro given
    obtain ⟨blank⟩ := given
    exact blank
  · exact .done

theorem spaced_cons : Spaced (token :: tokens) text ↔
    ∃ blanks rest, isAllBlank blanks = true ∧ text = blanks ++ (token ++ rest) ∧ Spaced tokens rest := by
  constructor
  · intro spaced
    cases spaced with
    | @token blanks _ rest _ blank tail => exact ⟨blanks, rest, blank, rfl, tail⟩
  · intro given
    obtain ⟨blanks, rest, blank, rfl, tail⟩ := given
    exact .token blank tail

theorem Spaced.after_blanks {blanks : List Char} (blank : isAllBlank blanks = true)
    (spaced : Spaced tokens text) : Spaced tokens (blanks ++ text) := by
  cases spaced with
  | done rest => exact .done (isAllBlank_append.mpr ⟨blank, rest⟩)
  | token first tail =>
    rw [← List.append_assoc]
    exact .token (isAllBlank_append.mpr ⟨blank, first⟩) tail

theorem spaced_append : Spaced (tokens ++ others) text ↔
    ∃ front rest, text = front ++ rest ∧ Spaced tokens front ∧ Spaced others rest := by
  induction tokens generalizing text with
  | nil =>
    simp only [List.nil_append, spaced_nil]
    constructor
    · intro spaced
      exact ⟨[], text, rfl, rfl, spaced⟩
    · intro given
      obtain ⟨front, rest, rfl, blank, spaced⟩ := given
      exact spaced.after_blanks blank
  | cons token tokens ih =>
    simp only [List.cons_append, spaced_cons, ih]
    constructor
    · intro given
      obtain ⟨blanks, _, blank, rfl, front, rest, rfl, left, right⟩ := given
      exact ⟨_, rest, by simp only [List.append_assoc], ⟨blanks, front, blank, rfl, left⟩, right⟩
    · intro given
      obtain ⟨_, rest, rfl, ⟨blanks, front, blank, rfl, left⟩, right⟩ := given
      exact ⟨blanks, _, blank, by simp only [List.append_assoc], front, rest, rfl, left, right⟩

theorem spaced_single (solid : Solid token) : Spaced [token] text ↔ trim text = token := by
  rw [← trims_exact, spaced_cons]
  simp only [spaced_nil]
  constructor
  · intro given
    obtain ⟨before, after, left, rfl, right⟩ := given
    exact ⟨solid, before, after, left, right, rfl⟩
  · intro given
    obtain ⟨_, before, after, left, right, rfl⟩ := given
    exact ⟨before, after, left, rfl, right⟩

theorem spaced_of_trim (spaced : Spaced tokens (trim text)) : Spaced tokens text := by
  obtain ⟨_, before, after, left, right, split⟩ := trims_trim text
  rw [split, ← List.append_nil tokens]
  refine Spaced.after_blanks left (spaced_append.mpr ⟨_, _, rfl, spaced, .done right⟩)

end Spaced
end WiredViews
