import WiredViews.Blank

namespace WiredViews

abbrev Line := List Char

-- A line ends at a line feed, and one carriage return just before it belongs to
-- the ending. A carriage return anywhere else is an ordinary character.
def splitLines : List Char → List Line
  | [] => [[]]
  | '\r' :: '\n' :: rest => [] :: splitLines rest
  | '\n' :: rest => [] :: splitLines rest
  | c :: rest =>
    match splitLines rest with
    | [] => [[c]]
    | line :: lines => (c :: line) :: lines

def joinLines (lines : List Line) : List Char :=
  ['\n'].intercalate lines

def numberLines {ν : Type} (numberOf : Nat → ν) (lines : List Line) : List (ν × Line) :=
  lines.mapIdx fun offset line => (numberOf offset, line)

def isIndent (c : Char) : Bool :=
  c == ' ' || c == '\t'

-- Only spaces and tabs may stand before a comment, and a line of other white
-- space is not blank. One line feed is let through at the end, so that a line
-- handed over with its ending is judged like the line itself.
def isIgnorable (line : Line) : Bool :=
  match line.dropWhile isIndent with
  | [] => true
  | ['\n'] => true
  | '/' :: '/' :: _ => true
  | _ => false

theorem splitLines_ne_nil (text : List Char) : splitLines text ≠ [] := by
  fun_induction splitLines text <;> simp

end WiredViews
