import WiredViews.Proofs.Spacing

namespace WiredViews

theorem code_bounds {c : Char} {low high : UInt32} (bounds : low ≤ c.val ∧ c.val ≤ high) :
    low.toNat ≤ c.toNat ∧ c.toNat ≤ high.toNat :=
  ⟨UInt32.le_iff_toNat_le.mp bounds.1, UInt32.le_iff_toNat_le.mp bounds.2⟩

theorem not_blank_of_code {c : Char} (low : 33 ≤ c.toNat) (high : c.toNat ≤ 126) : isBlank c = false := by
  simp only [isBlank, blankRanges, List.any_cons, List.any_nil, Bool.or_false, Bool.or_eq_false_iff,
    Bool.and_eq_false_iff, decide_eq_false_iff_not]
  omega

theorem lower_code {c : Char} (lower : c.isLower = true) : 97 ≤ c.toNat ∧ c.toNat ≤ 122 := by
  have bounds : decide (97 ≤ c.val) = true ∧ decide (c.val ≤ 122) = true := Bool.and_eq_true_iff.mp lower
  exact code_bounds ⟨of_decide_eq_true bounds.1, of_decide_eq_true bounds.2⟩

theorem upper_code {c : Char} (upper : c.isUpper = true) : 65 ≤ c.toNat ∧ c.toNat ≤ 90 := by
  have bounds : 65 ≤ c.val ∧ c.val ≤ 90 := of_decide_eq_true upper
  exact code_bounds bounds

theorem digit_code {c : Char} (digit : c.isDigit = true) : 48 ≤ c.toNat ∧ c.toNat ≤ 57 := by
  have bounds : decide (48 ≤ c.val) = true ∧ decide (c.val ≤ 57) = true := Bool.and_eq_true_iff.mp digit
  exact code_bounds ⟨of_decide_eq_true bounds.1, of_decide_eq_true bounds.2⟩

theorem isNameChar_of_isLower {c : Char} (lower : c.isLower = true) : isNameChar c = true := by
  simp [isNameChar, lower]

theorem not_blank_of_isNameChar {c : Char} (letter : isNameChar c = true) : isBlank c = false := by
  rw [isNameChar, Bool.or_eq_true, beq_iff_eq] at letter
  rcases letter with lower | rfl
  · obtain ⟨low, high⟩ := lower_code lower
    exact not_blank_of_code (by omega) (by omega)
  · decide

theorem not_isNameChar_of_blank {c : Char} (blank : isBlank c = true) : isNameChar c = false :=
  not_letter_of_blank (fun _ => not_blank_of_isNameChar) blank

theorem not_blank_of_isAlphanum {c : Char} (letter : c.isAlphanum = true) : isBlank c = false := by
  change ((c.isUpper || c.isLower) || c.isDigit) = true at letter
  rw [Bool.or_eq_true, Bool.or_eq_true] at letter
  rcases letter with (upper | lower) | digit
  · obtain ⟨low, high⟩ := upper_code upper
    exact not_blank_of_code (by omega) (by omega)
  · obtain ⟨low, high⟩ := lower_code lower
    exact not_blank_of_code (by omega) (by omega)
  · obtain ⟨low, high⟩ := digit_code digit
    exact not_blank_of_code (by omega) (by omega)

theorem isName_iff {text : List Char} :
    isName text = true ↔ ∃ c rest, text = c :: rest ∧ c.isLower = true ∧ ∀ d ∈ rest, isNameChar d = true := by
  cases text with
  | nil => simp [isName]
  | cons c rest =>
    simp only [isName, Bool.and_eq_true, List.all_eq_true]
    constructor
    · intro name
      exact ⟨c, rest, rfl, name⟩
    · intro given
      obtain ⟨_, _, equal, name⟩ := given
      cases equal
      exact name

theorem isProviderName_iff {text : List Char} : isProviderName text = true ↔
    ∃ c rest, text = c :: rest ∧ c.isUpper = true ∧ ∀ d ∈ rest, d.isAlphanum = true := by
  cases text with
  | nil => simp [isProviderName]
  | cons c rest =>
    simp only [isProviderName, Bool.and_eq_true, List.all_eq_true]
    constructor
    · intro name
      exact ⟨c, rest, rfl, name⟩
    · intro given
      obtain ⟨_, _, equal, name⟩ := given
      cases equal
      exact name

theorem name_ne_nil {name : List Char} (named : isName name = true) : name ≠ [] := by
  rintro rfl
  cases named

theorem name_apart {name : String} (named : isName name.toList = true) (mark : Char)
    (other : isNameChar mark = false) : mark ∉ name.toList := by
  obtain ⟨c, rest, spelled, lower, letters⟩ := isName_iff.mp named
  rw [spelled]
  intro member
  rcases List.mem_cons.mp member with rfl | later
  · rw [isNameChar_of_isLower lower] at other
    cases other
  · rw [letters mark later] at other
    cases other

theorem provider_ne_nil {text : List Char} (named : isProviderName text = true) : text ≠ [] := by
  rintro rfl
  cases named

theorem solid_name {text : List Char} (named : isName text = true) : Solid text := by
  obtain ⟨c, rest, rfl, lower, letters⟩ := isName_iff.mp named
  have first := not_blank_of_isNameChar (isNameChar_of_isLower lower)
  exact solid_of_all (List.forall_mem_cons.mpr ⟨first, fun d later => not_blank_of_isNameChar (letters d later)⟩)

theorem solid_provider {text : List Char} (named : isProviderName text = true) : Solid text := by
  obtain ⟨c, rest, rfl, upper, letters⟩ := isProviderName_iff.mp named
  have first : isBlank c = false := by
    obtain ⟨low, high⟩ := upper_code upper
    exact not_blank_of_code (by omega) (by omega)
  exact solid_of_all (List.forall_mem_cons.mpr ⟨first, fun d later => not_blank_of_isAlphanum (letters d later)⟩)

theorem solid_sigil {sigil : Char} {name : List Char} (solid : isBlank sigil = false)
    (named : isName name = true) : Solid (sigil :: name) := by
  have front : Solid [sigil] := ⟨by simpa using solid, by simpa using solid⟩
  have whole := @solid_of_ends [sigil] [] name front (solid_name named) (by simp) (name_ne_nil named)
  simpa using whole

theorem solid_quoted (value : List Char) : Solid ('\'' :: (value ++ ['\''])) := by
  have quote : Solid ['\''] := ⟨by simp; decide, by simp; decide⟩
  exact @solid_of_ends ['\''] value ['\''] quote quote (by simp) (by simp)

theorem takeName_append {name rest : List Char} (named : isName name = true)
    (stop : ∀ c ∈ rest.head?, isNameChar c = false) : takeName (name ++ rest) = some (name, rest) := by
  obtain ⟨c, letters, rfl, lower, all⟩ := isName_iff.mp named
  rw [List.cons_append, takeName, if_pos lower, takeWhile_stretch all stop, dropWhile_stretch all stop]

theorem takeName_split {text name rest : List Char} (taken : takeName text = some (name, rest)) :
    text = name ++ rest := by
  cases text with
  | nil => cases taken
  | cons c text =>
    simp only [takeName] at taken
    split at taken
    · cases taken
      rw [List.cons_append, List.takeWhile_append_dropWhile]
    · cases taken

theorem stops_name {blanks rest : List Char} {mark : Char} (blank : isAllBlank blanks = true)
    (other : isNameChar mark = false) : ∀ c ∈ (blanks ++ mark :: rest).head?, isNameChar c = false :=
  stops_after_blanks (fun _ => not_blank_of_isNameChar) blank (by simpa using other)

theorem skipBlanks_mark {blanks rest : List Char} {mark : Char} (blank : isAllBlank blanks = true)
    (solid : isBlank mark = false) : skipBlanks (blanks ++ mark :: rest) = mark :: rest :=
  skipBlanks_append blank (by simpa using solid)

theorem takeMark_append (mark rest : List Char) : takeMark mark (mark ++ rest) = some rest :=
  takeMark_eq_some.mpr rfl

theorem startsWith_iff {mark text : List Char} : startsWith mark text = true ↔ mark <+: text := by
  unfold startsWith
  rw [Option.isSome_iff_exists]
  constructor
  · intro given
    obtain ⟨rest, taken⟩ := given
    exact ⟨rest, (takeMark_eq_some.mp taken).symm⟩
  · intro given
    obtain ⟨rest, rfl⟩ := given
    exact ⟨rest, takeMark_append mark rest⟩

end WiredViews
