import WiredViews.Lines

namespace WiredViews

-- A line feed ends a line, together with a carriage return right before it.
inductive PhysicalLines : List Char → List Line → Prop where
  | last {line : Line} (plain : '\n' ∉ line) : PhysicalLines line [line]
  | feed {line rest : List Char} {lines : List Line} (plain : '\n' ∉ line) (bare : line.getLast? ≠ some '\r')
      (later : PhysicalLines rest lines) : PhysicalLines (line ++ '\n' :: rest) (line :: lines)
  | carriage {line rest : List Char} {lines : List Line} (plain : '\n' ∉ line)
      (later : PhysicalLines rest lines) : PhysicalLines (line ++ '\r' :: '\n' :: rest) (line :: lines)

theorem splitLines_cons {c : Char} {rest line : List Char} {lines : List Line} (plain : c ≠ '\n')
    (open_ : c = '\r' → rest.head? ≠ some '\n') (split : splitLines rest = line :: lines) :
    splitLines (c :: rest) = (c :: line) :: lines := by
  rw [splitLines.eq_4]
  · rw [split]
  · rintro more rfl rfl
    exact open_ rfl rfl
  · exact plain

theorem splitLines_last {line : Line} (plain : '\n' ∉ line) : splitLines line = [line] := by
  induction line with
  | nil => rfl
  | cons c line ih =>
    rw [List.mem_cons, not_or] at plain
    refine splitLines_cons (Ne.symm plain.1) (fun _ first => ?_) (ih plain.2)
    exact plain.2 (List.mem_of_mem_head? first)

theorem splitLines_feed {line rest : List Char} (plain : '\n' ∉ line) (bare : line.getLast? ≠ some '\r') :
    splitLines (line ++ '\n' :: rest) = line :: splitLines rest := by
  induction line with
  | nil => rfl
  | cons c line ih =>
    rw [List.mem_cons, not_or] at plain
    cases line with
    | nil =>
      refine splitLines_cons (Ne.symm plain.1) (fun same _ => ?_) rfl
      exact bare (by rw [same]; rfl)
    | cons d line =>
      refine splitLines_cons (Ne.symm plain.1) (fun _ first => ?_) (ih plain.2 ?_)
      · exact plain.2 (by cases first; simp)
      · simpa using bare

theorem splitLines_carriage {line rest : List Char} (plain : '\n' ∉ line) :
    splitLines (line ++ '\r' :: '\n' :: rest) = line :: splitLines rest := by
  induction line with
  | nil => rfl
  | cons c line ih =>
    rw [List.mem_cons, not_or] at plain
    refine splitLines_cons (Ne.symm plain.1) (fun _ first => ?_) (ih plain.2)
    cases line with
    | nil => cases first
    | cons d line => exact plain.2 (by cases first; simp)

theorem physicalLines_splitLines (text : List Char) : PhysicalLines text (splitLines text) := by
  fun_induction splitLines text with
  | case1 => exact .last (by simp)
  | case2 rest ih => exact @PhysicalLines.carriage [] _ _ (by simp) ih
  | case3 rest ih => exact @PhysicalLines.feed [] _ _ (by simp) (by simp) ih
  | case4 c rest notCarriage notFeed none ih => exact absurd none (splitLines_ne_nil rest)
  | case5 c rest notCarriage notFeed line lines split ih =>
    rw [split] at ih
    have fresh : ∀ line : Line, '\n' ∉ line → '\n' ∉ c :: line := by
      intro line plain member
      rcases List.mem_cons.mp member with same | later
      · exact notFeed same.symm
      · exact plain later
    cases ih with
    | last plain => exact .last (fresh _ plain)
    | @feed _ rest _ plain bare later =>
      refine @PhysicalLines.feed (c :: line) _ _ (fresh _ plain) ?_ later
      cases line with
      | nil =>
        intro same
        exact notCarriage rest (Option.some.inj same) rfl
      | cons d line => simpa using bare
    | carriage plain later => exact @PhysicalLines.carriage (c :: line) _ _ (fresh _ plain) later

theorem physicalLines_exact {text : List Char} {lines : List Line} :
    PhysicalLines text lines ↔ splitLines text = lines := by
  constructor
  · intro physical
    induction physical with
    | last plain => exact splitLines_last plain
    | feed plain bare _ ih => rw [splitLines_feed plain bare, ih]
    | carriage plain _ ih => rw [splitLines_carriage plain, ih]
  · rintro rfl
    exact physicalLines_splitLines text

theorem PhysicalLines.characters {text : List Char} {lines : List Line} (physical : PhysicalLines text lines)
    {line : Line} (listed : line ∈ lines) {c : Char} (member : c ∈ line) : c ∈ text := by
  induction physical with
  | last _ =>
    rw [List.mem_singleton] at listed
    exact listed ▸ member
  | feed _ _ _ ih | carriage _ _ ih =>
    rcases List.mem_cons.mp listed with rfl | later
    · exact List.mem_append_left _ member
    · have found := ih later
      simp [found]

theorem PhysicalLines.some_line {text : List Char} {lines : List Line} (physical : PhysicalLines text lines) :
    lines ≠ [] := by
  cases physical <;> exact List.cons_ne_nil _ _

theorem PhysicalLines.plain {text : List Char} {lines : List Line} (physical : PhysicalLines text lines)
    {line : Line} (listed : line ∈ lines) : '\n' ∉ line := by
  induction physical with
  | last plain =>
    rw [List.mem_singleton] at listed
    exact listed ▸ plain
  | feed plain _ _ ih | carriage plain _ ih =>
    rcases List.mem_cons.mp listed with rfl | later
    · exact plain
    · exact ih later

section Joining
variable {first rest text : List Char}

theorem splitLines_append (bare : first.getLast? ≠ some '\r') :
    splitLines (first ++ '\n' :: rest) = splitLines first ++ splitLines rest := by
  have physical := physicalLines_splitLines first
  generalize splitLines first = lines at physical
  induction physical with
  | last plain => exact splitLines_feed plain bare
  | @feed line later lines plain unended _ ih =>
    have tail : later.getLast? ≠ some '\r' := by
      intro last
      refine bare ?_
      rw [List.getLast?_append, List.getLast?_cons, last]
      rfl
    rw [List.append_assoc, List.cons_append, splitLines_feed plain unended, ih tail, List.cons_append]
  | @carriage line later lines plain _ ih =>
    have tail : later.getLast? ≠ some '\r' := by
      intro last
      refine bare ?_
      rw [List.getLast?_append, List.getLast?_cons, List.getLast?_cons, last]
      rfl
    rw [List.append_assoc, List.cons_append, List.cons_append, splitLines_carriage plain, ih tail,
      List.cons_append]

theorem splitLines_pieces {pieces : List (List Char)} (some_piece : pieces ≠ [])
    (bare : ∀ piece ∈ pieces, piece.getLast? ≠ some '\r') :
    splitLines (['\n'].intercalate pieces) = pieces.flatMap splitLines := by
  induction pieces with
  | nil => exact absurd rfl some_piece
  | cons piece pieces ih =>
    rw [List.forall_mem_cons] at bare
    cases pieces with
    | nil => simp
    | cons other pieces =>
      rw [List.intercalate_cons_cons, List.append_assoc, List.singleton_append, splitLines_append bare.1,
        ih (by simp) bare.2]
      rfl

theorem joinLines_cons {lines : List Line} (some_line : lines ≠ []) (line : Line) :
    joinLines (line :: lines) = line ++ '\n' :: joinLines lines := by
  obtain ⟨next, others, rfl⟩ := List.exists_cons_of_ne_nil some_line
  unfold joinLines
  rw [List.intercalate_cons_cons, List.append_assoc, List.singleton_append]

end Joining

def bareFeeds : List Char → List Char
  | [] => []
  | '\r' :: '\n' :: rest => '\n' :: bareFeeds rest
  | c :: rest => c :: bareFeeds rest

section Feeds
variable {line rest text : List Char}

theorem bareFeeds_append (plain : '\n' ∉ line) (apart : line.getLast? = some '\r' → rest.head? ≠ some '\n') :
    bareFeeds (line ++ rest) = line ++ bareFeeds rest := by
  induction line with
  | nil => rfl
  | cons c line ih =>
    rw [List.mem_cons, not_or] at plain
    have later : bareFeeds (line ++ rest) = line ++ bareFeeds rest := by
      apply ih plain.2
      intro last
      apply apart
      rw [List.getLast?_cons, last]
      rfl
    rw [List.cons_append, bareFeeds.eq_3, later, List.cons_append]
    rintro more rfl follows
    cases line with
    | nil => exact apart rfl (by rw [List.nil_append] at follows; rw [follows]; rfl)
    | cons d line =>
      cases follows
      simp at plain

theorem bareFeeds_plain (plain : '\n' ∉ line) : bareFeeds line = line := by
  have whole := @bareFeeds_append line [] plain (by simp)
  simpa [bareFeeds] using whole

theorem bareFeeds_same (bare : '\r' ∉ text) : bareFeeds text = text := by
  fun_induction bareFeeds text with
  | case1 => rfl
  | case2 rest ih => simp at bare
  | case3 c rest _ ih =>
    rw [List.mem_cons, not_or] at bare
    rw [ih bare.2]

theorem joinLines_splitLines (text : List Char) : joinLines (splitLines text) = bareFeeds text := by
  have physical := physicalLines_splitLines text
  generalize splitLines text = lines at physical
  induction physical with
  | @last line plain =>
    rw [bareFeeds_plain plain]
    simp [joinLines]
  | @feed line rest lines plain bare later ih =>
    rw [joinLines_cons later.some_line, ih, bareFeeds_append plain fun last => absurd last bare]
    rfl
  | @carriage line rest lines plain later ih =>
    rw [joinLines_cons later.some_line, ih, bareFeeds_append plain (by simp)]
    rfl

end Feeds

section Numbers
variable {start : Nat} {line : Line} {lines others : List Line}

theorem numberLines_cons : numberLines (· + start) (line :: lines) =
    (start, line) :: numberLines (· + (start + 1)) lines := by
  unfold numberLines
  rw [List.mapIdx_cons]
  simp only [Nat.zero_add, Nat.add_assoc, Nat.add_comm 1]

theorem numberLines_append : numberLines (· + start) (lines ++ others) =
    numberLines (· + start) lines ++ numberLines (· + (start + lines.length)) others := by
  unfold numberLines
  rw [List.mapIdx_append]
  simp only [Nat.add_assoc, Nat.add_comm lines.length]

theorem numberLines_texts (start : Nat) (lines : List Line) :
    (numberLines (· + start) lines).map Prod.snd = lines := by
  induction lines generalizing start with
  | nil => rfl
  | cons line rest ih => rw [numberLines_cons, List.map_cons, ih]

end Numbers

end WiredViews
