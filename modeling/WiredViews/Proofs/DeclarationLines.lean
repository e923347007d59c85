import WiredViews.Proofs.LogicalRuns

namespace WiredViews

inductive Continued : List Line → List Char → Prop where
  | nothing : Continued [] []
  | ignored {line : Line} {lines : List Line} {text : List Char} (ignored : isIgnorable line = true)
      (later : Continued lines text) : Continued (line :: lines) text
  | continued {line : Line} {lines : List Line} {piece text : List Char} (solid : isIgnorable line = false)
      (continues : Continues line piece) (later : Continued lines text) : Continued (line :: lines) (piece ++ text)

-- The lines of a declaration from its first to its last. The last one closes it, or it is
-- continued and there is nothing left that could go on with it.
inductive DeclarationLines : List Line → List Char → Prop where
  | closed {opens : List Line} {closing : Line} {text piece : List Char}
      (first : ∀ line ∈ opens.head?, isIgnorable line = false) (continued : Continued opens text)
      (solid : isIgnorable closing = false) (closes : Closes closing piece) :
      DeclarationLines (opens ++ [closing]) (trim (text ++ piece))
  | dangling {opens : List Line} {text : List Char} (first : ∀ line ∈ opens.head?, isIgnorable line = false)
      (continued : Continued opens text) (last : ∀ line ∈ opens.getLast?, isIgnorable line = false)
      (visible : isAllBlank text = false) : DeclarationLines opens (trim text)

def Ended (block : List Line) : Prop :=
  ∀ line ∈ block.getLast?, (trim line).getLast? ≠ some continuation

section Open
variable {ν : Type} {start : ν} {sofar text : List Char} {opens rest : List (ν × Line)}

theorem assembleFrom_through (continued : Continued (opens.map Prod.snd) text) :
    assembleFrom (some ⟨start, sofar⟩) (opens ++ rest) = assembleFrom (some ⟨start, sofar ++ text⟩) rest := by
  induction opens generalizing sofar text with
  | nil =>
    cases continued
    simp
  | cons row opens ih =>
    cases continued with
    | ignored ignored later => rw [List.cons_append, assembleFrom_ignored ignored, ih later]
    | continued solid continues later =>
      rw [List.cons_append, assembleFrom_continues solid continues rfl, ih later, List.append_assoc]

theorem Continued.unended {lines : List Line} (continued : Continued lines text) (some_line : lines ≠ [])
    (last : ∀ line ∈ lines.getLast?, isIgnorable line = false) : ¬ Ended lines := by
  induction continued with
  | nothing => exact absurd rfl some_line
  | @ignored line lines text ignored later ih =>
    cases lines with
    | nil =>
      have solid := last line rfl
      rw [ignored] at solid
      cases solid
    | cons next lines =>
      intro ended
      exact ih (by simp) (by simpa using last) (by simpa [Ended] using ended)
  | @continued line lines piece text solid continues later ih =>
    intro ended
    cases lines with
    | nil =>
      refine ended line rfl ?_
      rw [trims_exact.mp continues]
      simp
    | cons next lines => exact ih (by simp) (by simpa using last) (by simpa [Ended] using ended)

theorem ended_of_closes {opens : List Line} {closing : Line} {piece : List Char} (closes : Closes closing piece) :
    Ended (opens ++ [closing]) := by
  intro line last
  rw [List.getLast?_concat, Option.mem_some_iff] at last
  rw [← last, trims_exact.mp closes.1]
  exact closes.2

theorem Continued.last {lines : List Line} (continued : Continued lines text) : ∃ counted ignored,
    lines = counted ++ ignored ∧ Continued counted text ∧ (∀ line ∈ ignored, isIgnorable line = true) ∧
      ∀ line ∈ counted.getLast?, isIgnorable line = false := by
  induction continued with
  | nothing => exact ⟨[], [], rfl, .nothing, by simp, by simp⟩
  | @ignored line lines text ignored _ ih =>
    obtain ⟨counted, rest, rfl, inside, outside, last⟩ := ih
    cases counted with
    | nil => exact ⟨[], line :: rest, rfl, inside, List.forall_mem_cons.mpr ⟨ignored, outside⟩, by simp⟩
    | cons first counted =>
      exact ⟨line :: first :: counted, rest, rfl, .ignored ignored inside, outside, by simpa using last⟩
  | @continued line lines piece text solid continues _ ih =>
    obtain ⟨counted, rest, rfl, inside, outside, last⟩ := ih
    refine ⟨line :: counted, rest, rfl, .continued solid continues inside, outside, ?_⟩
    cases counted with
    | nil => simpa using solid
    | cons first counted => simpa using last

end Open

section Blocks
variable {ν : Type} {row : ν × Line} {rows rest : List (ν × Line)} {start : ν} {sofar : List Char}
  {line : LogicalLine ν} {later : List (LogicalLine ν)}

theorem assembleFrom_open (assembled : assembleFrom (some ⟨start, sofar⟩) rows = line :: later) :
    line.number = start ∧ ∃ opens text, Continued (opens.map Prod.snd) text ∧
      ((∃ closing piece rest, rows = opens ++ closing :: rest ∧ isIgnorable closing.2 = false ∧
          Closes closing.2 piece ∧ line.text = trim (sofar ++ (text ++ piece)) ∧ assembleFrom none rest = later) ∨
        (rows = opens ∧ isAllBlank (sofar ++ text) = false ∧ line.text = trim (sofar ++ text) ∧ later = [])) := by
  induction rows generalizing sofar with
  | nil =>
    rw [assembleFrom] at assembled
    split at assembled
    · cases assembled
    · rename_i visible
      cases assembled
      refine ⟨rfl, [], [], .nothing, Or.inr ⟨rfl, ?_, ?_, rfl⟩⟩
      · simpa using visible
      · simp [Unfinished.finish]
  | cons row rest ih =>
    cases ignored : isIgnorable row.2 with
    | true =>
      rw [assembleFrom_ignored ignored] at assembled
      obtain ⟨number, opens, text, continued, outcome⟩ := ih assembled
      refine ⟨number, row :: opens, text, .ignored ignored continued, ?_⟩
      rcases outcome with ⟨closing, piece, rest, rfl, closed⟩ | ⟨rfl, dangling⟩
      · exact Or.inl ⟨closing, piece, rest, rfl, closed⟩
      · exact Or.inr ⟨rfl, dangling⟩
    | false =>
      rcases continues_or_closes row.2 with ⟨piece, continues⟩ | ⟨piece, closes⟩
      · rw [assembleFrom_continues ignored continues rfl] at assembled
        obtain ⟨number, opens, text, continued, outcome⟩ := ih assembled
        refine ⟨number, row :: opens, piece ++ text, .continued ignored continues continued, ?_⟩
        rcases outcome with ⟨closing, last, rest, rfl, solid, closes, whole, tail⟩ | ⟨rfl, visible, whole, none⟩
        · refine Or.inl ⟨closing, last, rest, rfl, solid, closes, ?_, tail⟩
          simpa using whole
        · refine Or.inr ⟨rfl, ?_, ?_, none⟩
          · simpa using visible
          · simpa using whole
      · rw [assembleFrom_closes ignored closes rfl] at assembled
        cases assembled
        exact ⟨rfl, [], [], .nothing, Or.inl ⟨row, piece, rest, rfl, ignored, closes, by simp, rfl⟩⟩

theorem assembleFrom_unread {pending : Option (Unfinished ν)} {lead : List (ν × Line)}
    (ignored : ∀ row ∈ lead, isIgnorable row.2 = true) :
    assembleFrom pending (lead ++ rest) = assembleFrom pending rest := by
  induction lead with
  | nil => rfl
  | cons row lead ih =>
    rw [List.forall_mem_cons] at ignored
    rw [List.cons_append, assembleFrom_ignored ignored.1, ih ignored.2]

theorem assemble_unread {lead : List (ν × Line)} (ignored : ∀ row ∈ lead, isIgnorable row.2 = true) :
    assemble lead = [] := by
  have nothing := @assembleFrom_unread ν [] none lead ignored
  rwa [List.append_nil] at nothing

theorem assembleFrom_started {opens : List (ν × Line)} {text : List Char} {number : ν}
    (first : ∀ row ∈ opens.head?, isIgnorable row.2 = false) (continued : Continued (opens.map Prod.snd) text)
    (starts : (opens.head?).map Prod.fst = some number) :
    assembleFrom none (opens ++ rest) = assembleFrom (some ⟨number, text⟩) rest := by
  cases opens with
  | nil => cases starts
  | cons row opens =>
    cases starts
    have solid := first row rfl
    cases continued with
    | ignored ignored _ =>
      rw [solid] at ignored
      cases ignored
    | continued _ continues later =>
      rw [List.cons_append, assembleFrom_continues solid continues rfl, assembleFrom_through later,
        List.nil_append]

theorem DeclarationLines.some_line {block : List Line} {text : List Char} (lines : DeclarationLines block text) :
    block ≠ [] := by
  cases lines with
  | closed => simp
  | dangling _ continued _ visible =>
    intro nothing
    subst nothing
    cases continued
    cases visible

theorem head_solid {block : List (ν × Line)} (first : ∀ line ∈ (block.map Prod.snd).head?, isIgnorable line = false) :
    ∀ row ∈ block.head?, isIgnorable row.2 = false := by
  intro row starts
  refine first row.2 ?_
  rw [List.head?_map, Option.mem_def.mp starts]
  rfl

theorem DeclarationLines.assembled {block : List (ν × Line)} {text : List Char} {number : ν}
    (lines : DeclarationLines (block.map Prod.snd) text) (starts : (block.head?).map Prod.fst = some number)
    (rest : List (ν × Line)) (closed : Ended (block.map Prod.snd) ∨ ∀ row ∈ rest, isIgnorable row.2 = true) :
    assemble (block ++ rest) = ⟨number, text⟩ :: assemble rest := by
  generalize texts : block.map Prod.snd = all at lines closed
  cases lines with
  | @closed opens closing sofar piece first continued solid closes =>
    obtain ⟨rows, last, rfl, rfl, end_⟩ := List.map_eq_append_iff.mp texts
    obtain ⟨row, rfl, rfl⟩ := List.map_eq_singleton_iff.mp end_
    rw [List.append_assoc, List.singleton_append, assemble]
    cases rows with
    | nil =>
      cases continued
      cases starts
      rw [List.nil_append, assembleFrom_closes solid closes rfl]
      rfl
    | cons opening rows =>
      rw [assembleFrom_started (head_solid first) continued starts, assembleFrom_closes solid closes rfl]
      rfl
  | @dangling _ sofar first continued last visible =>
    subst texts
    have some_row : block.map Prod.snd ≠ [] := by
      cases block with
      | nil => cases starts
      | cons row block => simp
    rcases closed with ended | ignored
    · exact absurd ended (continued.unended some_row last)
    · have unread := @assembleFrom_unread ν [] (some ⟨number, sofar⟩) rest ignored
      rw [List.append_nil] at unread
      rw [assemble_unread ignored, assemble, assembleFrom_started (head_solid first) continued starts, unread,
        assembleFrom, visible]
      rfl

theorem assemble_first (assembled : assemble rows = line :: later) : ∃ lead block back,
    rows = lead ++ (block ++ back) ∧ (∀ row ∈ lead, isIgnorable row.2 = true) ∧
      (block.head?).map Prod.fst = some line.number ∧ DeclarationLines (block.map Prod.snd) line.text ∧
      (Ended (block.map Prod.snd) ∨ ∀ row ∈ back, isIgnorable row.2 = true) ∧ assemble back = later := by
  induction rows with
  | nil => cases assembled
  | cons row rest ih =>
    cases ignored : isIgnorable row.2 with
    | true =>
      rw [assemble, assembleFrom_ignored ignored] at assembled
      obtain ⟨lead, block, back, rfl, unread, found⟩ := ih assembled
      exact ⟨row :: lead, block, back, rfl, List.forall_mem_cons.mpr ⟨ignored, unread⟩, found⟩
    | false =>
      refine ⟨[], ?_⟩
      simp only [List.nil_append, List.not_mem_nil, false_implies, implies_true, true_and]
      rcases continues_or_closes row.2 with ⟨piece, continues⟩ | ⟨piece, closes⟩
      · rw [assemble, assembleFrom_continues ignored continues rfl, List.nil_append] at assembled
        obtain ⟨number, opens, text, open_, outcome⟩ := assembleFrom_open assembled
        have whole : Continued ((row :: opens).map Prod.snd) (piece ++ text) := .continued ignored continues open_
        have first : ∀ line ∈ ((row :: opens).map Prod.snd).head?, isIgnorable line = false := by simpa using ignored
        rcases outcome with ⟨closing, last, back, rfl, solid, closes, spelled, tail⟩ | ⟨rfl, visible, spelled, none⟩
        · refine ⟨row :: opens ++ [closing], back, by simp, by simp [number], ?_, Or.inl ?_, tail⟩
          · have lines := DeclarationLines.closed first whole solid closes
            rw [spelled, ← List.append_assoc]
            simpa using lines
          · simpa using @ended_of_closes ((row :: opens).map Prod.snd) _ _ closes
        · obtain ⟨counted, ignored, split_, inside, outside, last⟩ := whole.last
          obtain ⟨block, back, rows, rfl, rfl⟩ := List.map_eq_append_iff.mp split_
          have unread : ∀ row ∈ back, isIgnorable row.2 = true := List.forall_mem_map.mp outside
          cases block with
          | nil =>
            rw [List.nil_append] at rows
            subst rows
            have ignorable := unread row (by simp)
            rw [ignored] at ignorable
            cases ignorable
          | cons opening block =>
            rw [List.cons_append, List.cons.injEq] at rows
            obtain ⟨rfl, rfl⟩ := rows
            refine ⟨row :: block, back, by simp, by simp [number], ?_, Or.inr unread, ?_⟩
            · rw [spelled]
              exact .dangling (by simpa using ignored) inside last visible
            · rw [assemble_unread unread, none]
      · rw [assemble, assembleFrom_closes ignored closes rfl] at assembled
        cases assembled
        refine ⟨[row], rest, rfl, rfl, ?_, Or.inl (@ended_of_closes [] _ _ closes), rfl⟩
        exact @DeclarationLines.closed [] row.2 [] piece (by simp) .nothing ignored closes

theorem assemble_split {good : List (LogicalLine ν)} (assembled : assemble rows = good ++ line :: later) :
    ∃ front block back, rows = front ++ (block ++ back) ∧ (∀ rest, assemble (front ++ rest) = good ++ assemble rest) ∧
      (block.head?).map Prod.fst = some line.number ∧ DeclarationLines (block.map Prod.snd) line.text := by
  induction good generalizing rows with
  | nil =>
    obtain ⟨lead, block, back, rfl, ignored, starts, lines, _, _⟩ := assemble_first assembled
    exact ⟨lead, block, back, rfl, fun rest => assembleFrom_unread ignored, starts, lines⟩
  | cons other good ih =>
    obtain ⟨lead, block, back, rfl, ignored, starts, lines, closed, tail⟩ := assemble_first assembled
    obtain ⟨front, own, rest, rfl, further, head, text⟩ := ih tail
    have ended : Ended (block.map Prod.snd) := by
      refine closed.resolve_right fun unread => ?_
      rw [assemble_unread unread] at tail
      cases good <;> cases tail
    refine ⟨lead ++ (block ++ front), own, rest, by simp, fun rest => ?_, head, text⟩
    rw [List.append_assoc, List.append_assoc, assemble, assembleFrom_unread ignored, ← assemble,
      lines.assembled starts _ (Or.inl ended), further, List.cons_append]

end Blocks
end WiredViews
