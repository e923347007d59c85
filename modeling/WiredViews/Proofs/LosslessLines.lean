import WiredViews.Proofs.PhysicalLines

-- What splitting a text into lines keeps, and which lines can be put together and split again.
-- Every number of a line that is reported later rests on the count made here, whatever mixture of
-- endings a text has.
namespace WiredViews

structure LinesKept (text : List Char) : Prop where
  plain : ∀ line ∈ splitLines text, '\n' ∉ line
  counted : (splitLines text).length = text.count '\n' + 1
  joined : joinLines (splitLines text) = bareFeeds text
  numbered : ∀ front rest, text = front ++ '\n' :: rest →
    (splitLines text).drop (front.count '\n' + 1) = splitLines rest
  same : ∀ other, splitLines other = splitLines text ↔ bareFeeds other = bareFeeds text

section Lines
variable {text rest : List Char} {line : Line} {lines : List Line}

theorem splitLines_plain (listed : line ∈ splitLines text) : '\n' ∉ line :=
  (physicalLines_splitLines text).plain listed

theorem splitLines_length (text : List Char) : (splitLines text).length = text.count '\n' + 1 := by
  have physical := physicalLines_splitLines text
  generalize splitLines text = lines at physical
  induction physical with
  | last plain => simp [List.count_eq_zero_of_not_mem plain]
  | feed plain _ _ ih => simp [List.count_eq_zero_of_not_mem plain, ih]
  | carriage plain _ ih => simp [List.count_eq_zero_of_not_mem plain, ih]

theorem splitLines_drop (front rest : List Char) :
    (splitLines (front ++ '\n' :: rest)).drop (front.count '\n' + 1) = splitLines rest := by
  fun_induction splitLines front with
  | case1 => rfl
  | case2 front ih => simpa [splitLines] using ih
  | case3 front ih => simpa [splitLines] using ih
  | case4 c front _ _ none => exact absurd none (splitLines_ne_nil front)
  | case5 c front apart notFeed _ _ _ ih =>
    have count : (c :: front).count '\n' = front.count '\n' := List.count_cons_of_ne notFeed
    rw [count]
    by_cases ending : c = '\r' ∧ front = []
    · obtain ⟨rfl, rfl⟩ := ending
      rfl
    · obtain ⟨first, others, split⟩ := List.exists_cons_of_ne_nil (splitLines_ne_nil (front ++ '\n' :: rest))
      have whole : splitLines (c :: (front ++ '\n' :: rest)) = (c :: first) :: others := by
        apply splitLines_cons notFeed _ split
        intro carriage follows
        cases front with
        | nil => exact ending ⟨carriage, rfl⟩
        | cons d front =>
          cases follows
          exact apart front carriage rfl
      rw [split] at ih
      rw [List.cons_append, whole]
      exact ih

theorem splitLines_splitOn (text : List Char) : splitLines text = (bareFeeds text).splitOn '\n' := by
  rw [← joinLines_splitLines]
  exact (List.splitOn_intercalate '\n' (fun _ listed => splitLines_plain listed) (splitLines_ne_nil text)).symm

theorem lines_same (text other : List Char) : splitLines other = splitLines text ↔ bareFeeds other = bareFeeds text := by
  constructor
  · intro same
    rw [← joinLines_splitLines, same, joinLines_splitLines]
  · intro same
    rw [splitLines_splitOn, same, splitLines_splitOn]

theorem splitLines_joined (some_line : lines ≠ []) : splitLines (joinLines lines) = lines ↔
    (∀ line ∈ lines, '\n' ∉ line) ∧ ∀ line ∈ lines.dropLast, line.getLast? ≠ some '\r' := by
  induction lines with
  | nil => exact absurd rfl some_line
  | cons line rest ih =>
    cases rest with
    | nil =>
      have single : joinLines [line] = line := by simp [joinLines]
      rw [single]
      constructor
      · intro split
        refine ⟨fun one listed => splitLines_plain (split.symm ▸ listed), by simp⟩
      · intro given
        exact splitLines_last (given.1 line (by simp))
    | cons next rest =>
      have later := ih (List.cons_ne_nil next rest)
      rw [joinLines_cons (List.cons_ne_nil next rest), List.dropLast_cons_of_ne_nil (List.cons_ne_nil next rest)]
      constructor
      · intro split
        have plain : '\n' ∉ line := splitLines_plain (split.symm ▸ List.mem_cons_self)
        have bare : line.getLast? ≠ some '\r' := by
          intro last
          obtain ⟨clipped, rfl⟩ := List.getLast?_eq_some_iff.mp last
          rw [List.mem_append, not_or] at plain
          rw [List.append_assoc, List.singleton_append, splitLines_carriage plain.1] at split
          have shorter := congrArg List.length (List.cons.inj split).1
          simp at shorter
        rw [splitLines_feed plain bare] at split
        obtain ⟨others, ends⟩ := later.mp (List.cons.inj split).2
        exact ⟨List.forall_mem_cons.mpr ⟨plain, others⟩, List.forall_mem_cons.mpr ⟨bare, ends⟩⟩
      · intro given
        obtain ⟨plain, others⟩ := List.forall_mem_cons.mp given.1
        obtain ⟨bare, ends⟩ := List.forall_mem_cons.mp given.2
        rw [splitLines_feed plain bare, later.mpr ⟨others, ends⟩]

end Lines

theorem splitLines_lossless : (∀ text, LinesKept text) ∧ ∀ lines, lines ≠ [] →
    (splitLines (joinLines lines) = lines ↔
      (∀ line ∈ lines, '\n' ∉ line) ∧ ∀ line ∈ lines.dropLast, line.getLast? ≠ some '\r') := by
  refine ⟨fun text => ?_, fun lines some_line => splitLines_joined some_line⟩
  constructor
  case plain => exact fun _ => splitLines_plain
  case counted => exact splitLines_length text
  case joined => exact joinLines_splitLines text
  case numbered =>
    intro front rest split
    rw [split]
    exact splitLines_drop front rest
  case same => exact lines_same text

-- Of two carriage returns before a line feed one stays, and then the lines cannot be had again
-- from the text that they are joined to. At the end of a text it does no harm.
theorem returns_lossless :
    splitLines ['\r', '\r', '\n', 'b', '\r'] = [['\r'], ['b', '\r']] ∧ LinesKept ['\r', '\r', '\n', 'b', '\r'] ∧
    [['\r'], ['b', '\r']] ≠ ([] : List Line) ∧ splitLines (joinLines [['\r'], ['b', '\r']]) ≠ [['\r'], ['b', '\r']] ∧
    splitLines (joinLines [['a'], ['b', '\r']]) = [['a'], ['b', '\r']] := by
  obtain ⟨kept, again⟩ := splitLines_lossless
  refine ⟨by decide, kept _, by decide, ?_, ?_⟩
  · intro split
    have given := (again [['\r'], ['b', '\r']] (by decide)).mp split
    exact given.2 ['\r'] (by decide) rfl
  · apply (again [['a'], ['b', '\r']] (by decide)).mpr
    decide

end WiredViews
