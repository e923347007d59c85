import WiredViews.Proofs.DeclarationLines
import WiredViews.Proofs.RegionLines

namespace WiredViews

def ValidTexts (texts : List (List Char)) : Prop :=
  ∃ declarations, List.Forall₂ IsDeclaration texts declarations ∧ CopiesDefined [] declarations

structure FirstFault (start : Nat) (region front block back : List Line) (bad : List Char) : Prop where
  split : region = front ++ (block ++ back)
  lines : DeclarationLines block bad
  listed : ∃ good later, assemble (numberLines (· + start) region) = good ++ ⟨start + front.length, bad⟩ :: later ∧
    good.map LogicalLine.text = regionTexts front
  valid : ValidTexts (regionTexts front)
  invalid : ¬ ValidTexts (regionTexts front ++ [bad])

-- Views with the same headers, whatever stands below each of them.
structure Rebodied (below others : List Line) : Prop where
  heads : others.filter (fun line => viewTag.toList <+: line) = below.filter fun line => viewTag.toList <+: line
  titled : ∃ first rest, others = first :: rest ∧ viewTag.toList <+: first
  single : ∀ line ∈ others, ¬ dataTag.toList <+: line

-- An error that tells where the first fault is. The line that it counts is the first one of the
-- declaration, between the data header and the first view header.
structure Located (text : String) (error : SyntaxError) (above : List Line) (header : Line)
    (region below front block back : List Line) (bad : List Char) : Prop where
  fault : FirstFault (above.length + 2) region front block back bad
  line : ∃ first number, block.head? = some first ∧ error.line = some number ∧
    (number, first) ∈ numberedLines text.toList ∧ number = above.length + 2 + front.length ∧
    above.length + 1 < number ∧ number < above.length + 2 + region.length
  shortened : ∀ other : String, splitLines other.toList = above ++ header :: (front ++ below) →
    ∃ template, Template.read other = .ok template
  unchanged : Ended block → ∀ (other : String) (after others : List Line), (∀ line ∈ after, Untagged line) →
    Rebodied below others → splitLines other.toList = above ++ header :: ((front ++ (block ++ after)) ++ others) →
    Template.read other = .error error

section Texts
variable {texts : List (List Char)} {text : List Char} {context : Context} {lines : List (LogicalLine Nat)}
  {error : SyntaxError}

theorem validTexts_iff : ValidTexts texts ↔ ∃ whole, declareTexts .empty texts = .ok whole := by
  have bare : (texts.map fun text => (⟨0, text⟩ : LogicalLine Nat)).map LogicalLine.text = texts := by
    simp [Function.comp_def]
  have exactly := @declareAll_exact .empty (texts.map fun text => ⟨0, text⟩)
  simp only [declareAll_texts, bare, List.forall₂_map_left_iff] at exactly
  exact exactly.symm

theorem declareAll_error : declareAll context lines = .error error ↔ ∃ good bad later more fault,
    lines = good ++ bad :: later ∧ declareAll context good = .ok more ∧ declareText more bad.text = .error fault ∧
      error = ⟨fault, some bad.number⟩ := by
  induction lines generalizing context with
  | nil => simp [declareAll]
  | cons line rest ih =>
    rw [declareAll]
    cases here : declareText context line.text with
    | error fault =>
      constructor
      · intro failed
        cases failed
        exact ⟨[], line, rest, context, fault, rfl, rfl, here, rfl⟩
      · intro given
        obtain ⟨good, bad, later, more, other, split, before, refused, rfl⟩ := given
        cases good with
        | nil =>
          cases split
          cases before
          rw [here] at refused
          cases refused
          rfl
        | cons first good =>
          cases split
          rw [declareAll, here] at before
          cases before
    | ok next =>
      dsimp only
      rw [ih]
      constructor
      · intro given
        obtain ⟨good, bad, later, more, fault, split, before, refused⟩ := given
        refine ⟨line :: good, bad, later, more, fault, by rw [split]; rfl, ?_, refused⟩
        rw [declareAll, here]
        exact before
      · intro given
        obtain ⟨good, bad, later, more, fault, split, before, refused, known⟩ := given
        cases good with
        | nil =>
          cases split
          cases before
          rw [here] at refused
          cases refused
        | cons first good =>
          cases split
          rw [declareAll, here] at before
          exact ⟨good, bad, later, more, fault, rfl, before, refused, known⟩

theorem invalid_refused {fault : SyntaxFault} (before : declareTexts .empty texts = .ok context)
    (refused : declareText context text = .error fault) : ¬ ValidTexts (texts ++ [text]) := by
  intro valid
  obtain ⟨whole, declared⟩ := validTexts_iff.mp valid
  obtain ⟨next, early, late⟩ := foldlM_append_ok.mp declared
  have same := before.symm.trans early
  cases same
  obtain ⟨more, here, _⟩ := foldlM_cons_ok.mp late
  rw [refused] at here
  cases here

end Texts

section Rows
variable {start : Nat} {lines : List Line} {front rest : List NumberedLine}

theorem numberLines_split (split : numberLines (· + start) lines = front ++ rest) :
    front = numberLines (· + start) (front.map Prod.snd) ∧
      rest = numberLines (· + (start + front.length)) (rest.map Prod.snd) := by
  have texts := congrArg (List.map Prod.snd) split
  rw [numberLines_texts, List.map_append] at texts
  rw [texts, numberLines_append, List.length_map] at split
  have same := List.append_inj split (by simp [numberLines])
  exact ⟨same.1.symm, same.2.symm⟩

end Rows

section Regions
variable {start : Nat} {region : List Line} {error : SyntaxError}

theorem region_fault (failed : declareAll .empty (assemble (numberLines (· + start) region)) = .error error) :
    ∃ front block back bad, FirstFault start region front block back bad ∧ error.line = some (start + front.length) ∧
      (Ended block → ∀ after : List Line,
        declareAll .empty (assemble (numberLines (· + start) (front ++ (block ++ after)))) = .error error) := by
  obtain ⟨good, bad, later, more, fault, assembled, before, refused, rfl⟩ := declareAll_error.mp failed
  obtain ⟨front, block, back, rows, further, starts, lines⟩ := assemble_split assembled
  obtain ⟨frontRows, rest⟩ := numberLines_split rows
  obtain ⟨blockRows, _⟩ := numberLines_split rest.symm
  have alone : assemble front = good := by
    have nothing := further []
    rwa [List.append_nil, assemble, assemble, assembleFrom, List.append_nil] at nothing
  have goodTexts : good.map LogicalLine.text = regionTexts (front.map Prod.snd) := by rw [← assemble_texts, alone]
  have declared : declareTexts .empty (regionTexts (front.map Prod.snd)) = .ok more := by
    rw [← goodTexts]
    exact declareAll_texts.mp before
  have number : bad.number = start + (front.map Prod.snd).length := by
    cases block with
    | nil => cases starts
    | cons row block =>
      rw [List.map_cons, numberLines_cons] at blockRows
      have first := (List.cons.inj blockRows).1
      have head : row.1 = bad.number := Option.some.inj starts
      rw [← head, first, List.length_map]
  refine ⟨front.map Prod.snd, block.map Prod.snd, back.map Prod.snd, bad.text, ?_, by rw [number], ?_⟩
  · constructor
    case split =>
      have texts := congrArg (List.map Prod.snd) rows
      rwa [numberLines_texts, List.map_append, List.map_append] at texts
    case lines => exact lines
    case listed =>
      rw [← number]
      exact ⟨good, later, assembled, goodTexts⟩
    case valid => exact validTexts_iff.mpr ⟨more, declared⟩
    case invalid => exact invalid_refused declared refused
  · intro ended after
    rw [numberLines_append, numberLines_append, List.length_map, ← frontRows, ← blockRows, further,
      lines.assembled starts _ (Or.inl ended)]
    exact declareAll_error.mpr ⟨good, bad, _, more, fault, rfl, before, refused, rfl⟩

end Regions

section Frames
variable {text other : String} {above region below : List Line} {header : Line} {error : SyntaxError}

theorem ViewsHeaded.rebodied {others : List Line} (headed : ViewsHeaded below) (rebodied : Rebodied below others) :
    ViewsHeaded others := by
  rw [ViewsHeaded, rebodied.heads]
  exact headed

theorem Framed.read_error (framed : Framed (splitLines text.toList) above header region below)
    (headed : ViewsHeaded below) : Template.read text = .error error ↔
      declareAll .empty (assemble (numberLines (· + (above.length + 2)) region)) = .error error := by
  obtain ⟨views, viewed⟩ := (@readViews_headed (above.length + 2 + region.length) below).mpr headed
  rw [framed.read, viewed]
  cases declareAll .empty (assemble (numberLines (· + (above.length + 2)) region)) with
  | error fault => simp [Except.bind, Except.map]
  | ok context => simp [Except.bind, Except.map]

theorem Framed.read_valid (framed : Framed (splitLines text.toList) above header region below)
    (headed : ViewsHeaded below) (valid : ValidTexts (regionTexts region)) :
    ∃ template, Template.read text = .ok template := by
  obtain ⟨views, viewed⟩ := (@readViews_headed (above.length + 2 + region.length) below).mpr headed
  obtain ⟨context, declared⟩ := validTexts_iff.mp valid
  exact ⟨⟨views, context⟩, framed.read_ok.mpr ⟨viewed, declared⟩⟩

end Frames

theorem read_located {text : String} {above region below : List Line} {header : Line} {error : SyntaxError}
    (framed : Framed (splitLines text.toList) above header region below) (headed : ViewsHeaded below)
    (failed : Template.read text = .error error) :
    ∃ front block back bad, Located text error above header region below front block back bad := by
  obtain ⟨front, block, back, bad, fault, line, unchanged⟩ := region_fault ((framed.read_error headed).mp failed)
  have untagged := framed.region
  simp only [fault.split, List.forall_mem_append] at untagged
  obtain ⟨frontUntagged, blockUntagged, _⟩ := untagged
  refine ⟨front, block, back, bad, fault, ?_, ?_, ?_⟩
  case refine_1 =>
    obtain ⟨first, rest, rfl⟩ := List.exists_cons_of_ne_nil fault.lines.some_line
    refine ⟨first, _, rfl, line, ?_, rfl, by omega, ?_⟩
    · rw [numberedLines, framed.layout.rows, fault.split, numberLines_append, List.cons_append, numberLines_cons]
      simp
    · rw [fault.split]
      simp
  case refine_2 =>
    intro other lines
    have reframed : Framed (splitLines other.toList) above header front below :=
      ⟨lines, framed.header, framed.above, frontUntagged, framed.single, framed.titled⟩
    exact reframed.read_valid headed fault.valid
  case refine_3 =>
    intro ended other after others afterUntagged rebodied lines
    have regionUntagged : ∀ line ∈ front ++ (block ++ after), Untagged line := by
      simp only [List.forall_mem_append]
      exact ⟨frontUntagged, blockUntagged, afterUntagged⟩
    have reframed : Framed (splitLines other.toList) above header (front ++ (block ++ after)) others :=
      ⟨lines, framed.header, framed.above, regionUntagged, rebodied.single, rebodied.titled⟩
    exact (reframed.read_error (headed.rebodied rebodied)).mpr (unchanged ended after)

def stalled : String :=
  "Notes\n#data\n$start = 'Oslo'\n@over = Ferry \x7b \\\n  // by night\n  from = start; \x7d\n$port = $later\n" ++
    "#view\nover\n"

theorem stalled_located : ∃ above header region below error,
    Framed (splitLines stalled.toList) above header region below ∧ ViewsHeaded below ∧
      Template.read stalled = .error error ∧
      error = ⟨.serviceBlock "over" "\x7b from = start; \x7d", some 4⟩ ∧
      ∃ front block back bad, Located stalled error above header region below front block back bad := by
  have framed : Framed (splitLines stalled.toList) ["Notes".toList] dataTag.toList
      (["$start = 'Oslo'", "@over = Ferry \x7b \\", "  // by night", "  from = start; \x7d",
        "$port = $later"].map String.toList) [viewTag.toList, "over".toList, []] := by
    refine ⟨by decide +kernel, ⟨[], rfl, by simp⟩, by decide +kernel, by decide +kernel, by decide +kernel, ?_⟩
    exact ⟨_, _, rfl, List.prefix_refl _⟩
  have headed : ViewsHeaded [viewTag.toList, "over".toList, []] := by
    have heads : [viewTag.toList, "over".toList, []].filter (fun line => viewTag.toList <+: line) =
        [viewTag.toList] := by decide +kernel
    refine ⟨[defaultViewName], ?_, by decide⟩
    rw [heads]
    exact .cons ⟨.html, [], [], [], .missing, .missing, rfl, by simp⟩ .nil
  have failed : Template.read stalled = .error ⟨.serviceBlock "over" "\x7b from = start; \x7d", some 4⟩ := by
    decide +kernel
  exact ⟨_, _, _, _, _, framed, headed, failed, rfl, read_located framed headed failed⟩

def unmoored : String := "#data\n$start = Oslo \\ \n#view\n"

def adrift : String := "#data\n$start = Oslo \\ \nharbour\n#view\n"

-- The mark of a continuation counts although it is not the last character of its line.
theorem unmoored_continued :
    splitLines unmoored.toList = ["#data", "$start = Oslo \\ ", "#view", ""].map String.toList ∧
      assemble (numberLines (· + 2) ["$start = Oslo \\ ".toList]) = [⟨2, "$start = Oslo".toList⟩] ∧
      "$start = Oslo \\ ".toList.getLast? ≠ some continuation ∧ Untagged "harbour".toList ∧
      splitLines adrift.toList = ["#data", "$start = Oslo \\ ", "harbour", "#view", ""].map String.toList ∧
      Template.read unmoored = .error ⟨.variableValue "Oslo", some 2⟩ ∧
      Template.read adrift = .error ⟨.variableValue "Oslo harbour", some 2⟩ := by
  decide +kernel

end WiredViews
