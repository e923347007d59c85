import Mathlib.Data.List.Basic
import WiredViews.Proofs.EngineSource

namespace WiredViews

def tightMark (name : String) : List Char :=
  '{' :: '{' :: (name.toList ++ ['}', '}'])

def tightened (rows : List (List Char × String)) (last : List Char) : List Char :=
  (rows.flatMap fun row => row.1 ++ tightMark row.2) ++ last

def insertedTokens (rows : List (List Char × String)) (last : List Char) : List SourceToken :=
  (rows.flatMap fun row => List.replicate (row.1.count '{') .brace ++ [.entry row.2]) ++
    List.replicate (last.count '{') .brace

def pieceSource : Segment SourceToken → List Char
  | .plain stretch => stretch
  | .found token => token.source

def retoldPiece : Segment SourceToken → List Char
  | .plain stretch => stretch
  | .found .brace => ['{']
  | .found (.entry name) => tightMark name

-- A construct among the pieces lies around a place of the source: its first part ends what is
-- in front of the place, and its second part begins what is behind.
def TokenAt (pieces : List (Segment SourceToken)) (front back first second : List Char) : Prop :=
  ∃ before token after, pieces = before ++ .found token :: after ∧ token.source = first ++ second ∧
    front = before.flatMap pieceSource ++ first ∧ back = second ++ after.flatMap pieceSource

-- A source in which every brace belongs to a construct, so that nothing else is opened.
structure Inert (source : List Char) (pieces : List (Segment SourceToken)) : Prop where
  written : pieces.flatMap pieceSource = source
  named : ∀ token, .found token ∈ pieces → token.Named
  owned : ∀ front back, source = front ++ '{' :: back →
    ∃ first second, TokenAt pieces front ('{' :: back) first ('{' :: second)
  opening : ∀ front back, source = front ++ '{' :: '{' :: back →
    ∃ token, TokenAt pieces front ('{' :: '{' :: back) [] token
  unopened : ∀ front back, source ≠ front ++ '{' :: '%' :: back ∧ source ≠ front ++ '{' :: '#' :: back

section Braces
variable {source front back : List Char} {pieces : List (Segment SourceToken)}

theorem token_start {token : SourceToken} (named : token.Named) :
    ∃ body, token.source = '{' :: '{' :: ' ' :: body ∧
      ∀ first second, body = first ++ '{' :: second → ∃ more, second = '\'' :: more := by
  cases token with
  | brace =>
    refine ⟨['\'', '{', '\'', ' ', '}', '}'], rfl, fun first second split => ?_⟩
    match first with
    | [] => exact absurd (List.cons.inj split).1 (by decide)
    | [_] => exact ⟨_, (List.cons.inj (List.cons.inj split).2).2.symm⟩
    | _ :: _ :: first =>
      have behind : ['\'', ' ', '}', '}'] = first ++ '{' :: second := (List.cons.inj (List.cons.inj split).2).2
      have listed : '{' ∈ ['\'', ' ', '}', '}'] := by simp [behind]
      exact absurd listed (by decide)
  | entry name =>
    have unbraced : '{' ∉ "record['".toList ++ (name.toList ++ entryEnd) := by
      rw [List.mem_append, List.mem_append, not_or, not_or]
      exact ⟨by decide, name_apart named '{' (by decide), by decide⟩
    refine ⟨"record['".toList ++ (name.toList ++ entryEnd), ?_, fun first second split => ?_⟩
    · rw [SourceToken.source, entryToken, List.append_assoc]
      rfl
    · rw [split] at unbraced
      simp at unbraced

-- What follows a brace in a construct. Two braces are found at its start only.
theorem token_brace {token : SourceToken} (named : token.Named) {first second : List Char}
    (split : token.source = first ++ '{' :: second) :
    ∃ c more, second = c :: more ∧ (c = '{' ∧ first = [] ∨ c = ' ' ∨ c = '\'') := by
  obtain ⟨body, spelled, behind⟩ := token_start named
  match first with
  | [] =>
    rw [spelled] at split
    cases split
    exact ⟨_, _, rfl, Or.inl ⟨rfl, rfl⟩⟩
  | [a] =>
    rw [spelled] at split
    cases split
    exact ⟨_, _, rfl, Or.inr (Or.inl rfl)⟩
  | [a, b] =>
    rw [spelled] at split
    cases split
  | a :: b :: c :: first =>
    have later : body = first ++ '{' :: second := by
      rw [spelled] at split
      simpa using (List.cons.inj (List.cons.inj (List.cons.inj split).2).2).2
    obtain ⟨more, rfl⟩ := behind first second later
    exact ⟨_, _, rfl, Or.inr (Or.inr rfl)⟩

theorem brace_owned (plain : ∀ stretch, .plain stretch ∈ pieces → '{' ∉ stretch)
    (split : pieces.flatMap pieceSource = front ++ '{' :: back) :
    ∃ first second, TokenAt pieces front ('{' :: back) first ('{' :: second) := by
  obtain ⟨before, piece, after, first, second, same, spelled, ends, begins⟩ := flatMap_split split
  cases piece with
  | plain stretch =>
    have braced : '{' ∈ stretch := by simp [show stretch = _ from spelled]
    exact absurd braced (plain stretch (by simp [same]))
  | found token => exact ⟨first, second, before, token, after, same, spelled, ends, by rw [begins, List.cons_append]⟩

theorem inert_of_plain (plain : ∀ stretch, .plain stretch ∈ pieces → '{' ∉ stretch)
    (named : ∀ token, .found token ∈ pieces → token.Named) : Inert (pieces.flatMap pieceSource) pieces := by
  have follows : ∀ front c back, pieces.flatMap pieceSource = front ++ '{' :: c :: back →
      (c = '{' ∧ ∃ token, TokenAt pieces front ('{' :: c :: back) [] token) ∨ c = ' ' ∨ c = '\'' := by
    intro front c back split
    obtain ⟨first, second, place⟩ := brace_owned plain split
    obtain ⟨before, token, after, same, spelled, ends, begins⟩ := place
    obtain ⟨d, more, rfl, kind⟩ := token_brace (named token (by simp [same])) spelled
    obtain ⟨rfl, rest⟩ := List.cons.inj (List.cons.inj begins).2
    rcases kind with ⟨brace, rfl⟩ | other
    · exact Or.inl ⟨brace, _, before, token, after, same, spelled, ends, begins⟩
    · exact Or.inr other
  constructor
  case written => rfl
  case named => exact named
  case owned => exact fun front back split => brace_owned plain split
  case opening =>
    intro front back split
    rcases follows front '{' back split with ⟨_, place⟩ | other
    · exact place
    · exact absurd other (by decide)
  case unopened =>
    intro front back
    constructor
    · intro split
      exact absurd (follows front '%' back split) (by simp)
    · intro split
      exact absurd (follows front '#' back split) (by simp)

end Braces

def sourcePieces (text : List Char) : List (Segment SourceToken) :=
  segments tokenPattern (viewSource text)

theorem segments_source {token : SourceToken} (named : token.Named) (rest : List Char) :
    segments tokenPattern (token.source ++ rest) = .found token :: segments tokenPattern rest := by
  obtain ⟨body, spelled, _⟩ := token_start named
  have some_token : token.source ≠ [] := by simp [spelled]
  exact segments_token some_token (tokenPattern_token named)

section Reading
variable {β : Type} {read : Segment SourceToken → List β}

def readStretch (read : Segment SourceToken → List β) (stretch : List Char) : List β :=
  stretch.flatMap fun c => if c = '{' then read (.found .brace) else read (.plain [c])

theorem segments_literal
    (splits : ∀ c stretch, read (.plain (c :: stretch)) = read (.plain [c]) ++ read (.plain stretch))
    (stretch rest : List Char) : (segments tokenPattern (literalSource stretch ++ rest)).flatMap read =
      readStretch read stretch ++ (segments tokenPattern rest).flatMap read := by
  unfold readStretch
  induction stretch with
  | nil => rfl
  | cons c stretch ih =>
    rw [List.flatMap_cons, List.append_assoc, ← ih, literalSource, List.flatMap_cons]
    by_cases brace : c = '{'
    · have first : SourceToken.brace.Named := trivial
      rw [if_pos brace, if_pos brace, List.append_assoc, ← List.flatMap_cons, ← segments_source first]
      rfl
    · rw [if_neg brace, if_neg brace, List.append_assoc, List.singleton_append, segments_cons,
        tokenPattern_plain brace]
      exact flatMap_consChar splits c _

theorem Cut.pieces {text last : List Char} {rows : List (List Char × String)} (cut : Cut text rows last)
    (splits : ∀ c stretch, read (.plain (c :: stretch)) = read (.plain [c]) ++ read (.plain stretch)) :
    (sourcePieces text).flatMap read =
      (rows.flatMap fun row => readStretch read row.1 ++ read (.found (.entry row.2))) ++ readStretch read last := by
  unfold sourcePieces
  induction cut with
  | @last stretch silent =>
    have whole := segments_literal splits stretch []
    rw [List.append_nil] at whole
    rw [viewSource_last silent, whole]
    exact List.append_nil _
  | @mark stretch token rest last name rows silent marks tail ih =>
    have named : (SourceToken.entry name).Named := marks.1
    have first := segments_source named (viewSource rest)
    rw [SourceToken.source] at first
    rw [viewSource_mark silent marks, segments_literal splits, first, List.flatMap_cons, ih]
    simp only [List.flatMap_cons, List.append_assoc]

end Reading

section Views
variable {text last : List Char} {rows : List (List Char × String)}

theorem Cut.retold (cut : Cut text rows last) : (sourcePieces text).flatMap retoldPiece = tightened rows last := by
  have kept : ∀ stretch, readStretch retoldPiece stretch = stretch := by
    intro stretch
    unfold readStretch
    rw [List.flatMap_congr (g := fun c => [c]), List.flatMap_singleton']
    intro c _
    by_cases brace : c = '{' <;> simp [brace, retoldPiece]
  rw [cut.pieces fun _ _ => rfl]
  simp only [kept, tightened, retoldPiece]

theorem Cut.written (cut : Cut text rows last) : (sourcePieces text).flatMap pieceSource = viewSource text := by
  have literal : ∀ stretch, readStretch pieceSource stretch = literalSource stretch := fun _ => rfl
  rw [cut.pieces fun _ _ => rfl]
  simp only [literal]
  induction cut with
  | last silent => rw [viewSource_last silent]; rfl
  | mark silent marks _ ih =>
    rw [viewSource_mark silent marks, ← ih]
    simp only [List.flatMap_cons, List.append_assoc]
    rfl

theorem Cut.inserted (cut : Cut text rows last) :
    (sourcePieces text).filterMap Segment.item? = insertedTokens rows last := by
  have items : ∀ stretch : List Char, readStretch (fun piece : Segment SourceToken => piece.item?.toList) stretch =
      List.replicate (stretch.count '{') .brace := by
    intro stretch
    unfold readStretch
    induction stretch with
    | nil => rfl
    | cons c stretch ih =>
      rw [List.flatMap_cons, ih]
      by_cases brace : c = '{' <;> simp [brace, Segment.item?, List.replicate_succ]
  have whole := @Cut.pieces _ (fun piece => piece.item?.toList) _ _ _ cut fun _ _ => rfl
  simp only [items] at whole
  rw [← List.filterMap_eq_flatMap_toList] at whole
  exact whole

def looseBraces : Segment SourceToken → List Char
  | .plain stretch => stretch.filter (· = '{')
  | .found _ => []

theorem Cut.unbraced (cut : Cut text rows last) : ∀ stretch, .plain stretch ∈ sourcePieces text → '{' ∉ stretch := by
  have none : ∀ stretch, readStretch looseBraces stretch = [] := by
    intro stretch
    rw [readStretch, List.flatMap_eq_nil_iff]
    intro c _
    by_cases brace : c = '{' <;> simp [brace, looseBraces]
  have splits : ∀ c stretch,
      looseBraces (.plain (c :: stretch)) = looseBraces (.plain [c]) ++ looseBraces (.plain stretch) :=
    fun c stretch => List.filter_append (p := (· = '{')) [c] stretch
  have loose : (sourcePieces text).flatMap looseBraces = [] := by
    rw [cut.pieces splits]
    simp [none, looseBraces]
  rw [List.flatMap_eq_nil_iff] at loose
  intro stretch listed braced
  have here : '{' ∈ stretch.filter (· = '{') := List.mem_filter.mpr ⟨braced, by simp⟩
  rw [show stretch.filter (· = '{') = [] from loose _ listed] at here
  exact List.not_mem_nil here

theorem Cut.named (cut : Cut text rows last) : ∀ row ∈ rows, isName row.2.toList = true := by
  induction cut with
  | last => exact List.forall_mem_nil _
  | mark _ marks _ ih => exact List.forall_mem_cons.mpr ⟨marks.1, ih⟩

theorem Cut.tokens_named (cut : Cut text rows last) : ∀ token, .found token ∈ sourcePieces text → token.Named := by
  intro token listed
  have inserted : token ∈ insertedTokens rows last := by
    rw [← cut.inserted]
    exact List.mem_filterMap.mpr ⟨_, listed, rfl⟩
  cases token with
  | brace => exact trivial
  | entry name =>
    simp only [insertedTokens, List.mem_append, List.mem_flatMap, List.mem_replicate, List.mem_singleton,
      reduceCtorEq, and_false, or_false, false_or, SourceToken.entry.injEq] at inserted
    obtain ⟨row, member, rfl⟩ := inserted
    exact cut.named row member

end Views

theorem viewSource_inert (text : List Char) :
    ∃ rows last, Cut text rows last ∧
      (∀ others ending, Cut text others ending → others = rows ∧ ending = last) ∧
      Inert (viewSource text) (sourcePieces text) ∧
      (sourcePieces text).filterMap Segment.item? = insertedTokens rows last ∧
      (sourcePieces text).flatMap retoldPiece = tightened rows last := by
  obtain ⟨rows, last, cut⟩ := exists_cut text
  have inert := inert_of_plain cut.unbraced cut.tokens_named
  rw [cut.written] at inert
  exact ⟨rows, last, cut, fun _ _ other => cut.unique other, inert, cut.inserted, cut.retold⟩

example : (sourcePieces "\x7b\x7b '\x7b' \x7d\x7d\x7b% \x7b\x7b\t s \x7d\x7d".toList).flatMap retoldPiece =
    "\x7b\x7b '\x7b' \x7d\x7d\x7b% \x7b\x7bs\x7d\x7d".toList := by decide +kernel

end WiredViews
