namespace WiredViews

inductive Segment (α : Type) where
  | plain (stretch : List Char)
  | found (item : α)
deriving DecidableEq

-- A pattern looks at the front of a text only: what it found and what is left.
abbrev Pattern (α : Type) := List Char → Option (α × List Char)

def Segment.consChar {α : Type} (c : Char) : List (Segment α) → List (Segment α)
  | .plain stretch :: rest => .plain (c :: stretch) :: rest
  | rest => .plain [c] :: rest

-- Finds are leftmost and do not overlap. The number says how many characters
-- still belong to the last find and are passed over.
def segmentsFrom {α : Type} (pattern : Pattern α) : Nat → List Char → List (Segment α)
  | _, [] => []
  | covered + 1, _ :: rest => segmentsFrom pattern covered rest
  | 0, c :: rest =>
    match pattern (c :: rest) with
    | some (item, left) => .found item :: segmentsFrom pattern (rest.length - left.length) rest
    | none => Segment.consChar c (segmentsFrom pattern 0 rest)

def segments {α : Type} (pattern : Pattern α) (text : List Char) : List (Segment α) :=
  segmentsFrom pattern 0 text

def Segment.item? {α : Type} : Segment α → Option α
  | .plain _ => none
  | .found item => some item

def finds {α : Type} (pattern : Pattern α) (text : List Char) : List α :=
  (segments pattern text).filterMap Segment.item?

theorem segmentsFrom_drop {α : Type} (pattern : Pattern α) (covered : Nat) (text : List Char) :
    segmentsFrom pattern covered text = segments pattern (text.drop covered) := by
  induction text generalizing covered with
  | nil => simp [segments, segmentsFrom]
  | cons c rest ih =>
    cases covered with
    | zero => rfl
    | succ covered => simpa [segmentsFrom] using ih covered

theorem segments_cons {α : Type} (pattern : Pattern α) (c : Char) (rest : List Char) :
    segments pattern (c :: rest) =
      match pattern (c :: rest) with
      | some (item, left) => .found item :: segments pattern (rest.drop (rest.length - left.length))
      | none => Segment.consChar c (segments pattern rest) := by
  rw [segments, segmentsFrom]
  cases pattern (c :: rest) with
  | none => rfl
  | some got => simp only [segmentsFrom_drop]

end WiredViews
