namespace WiredViews

-- White space is the union of the Unicode separators and of the control
-- characters that end or indent lines. Zero-width characters are not in it.
def blankRanges : List (Nat × Nat) :=
  [(0x09, 0x0D), (0x1C, 0x20), (0x85, 0x85), (0xA0, 0xA0), (0x1680, 0x1680), (0x2000, 0x200A),
    (0x2028, 0x2029), (0x202F, 0x202F), (0x205F, 0x205F), (0x3000, 0x3000)]

def isBlank (c : Char) : Bool :=
  blankRanges.any fun range => range.1 ≤ c.toNat && c.toNat ≤ range.2

def skipBlanks (text : List Char) : List Char :=
  text.dropWhile isBlank

def trimEnd (text : List Char) : List Char :=
  (text.reverse.dropWhile isBlank).reverse

def trim (text : List Char) : List Char :=
  trimEnd (skipBlanks text)

def isAllBlank (text : List Char) : Bool :=
  text.all isBlank

theorem skipBlanks_head (text : List Char) : ∀ c ∈ (skipBlanks text).head?, isBlank c = false := by
  induction text with
  | nil => simp [skipBlanks]
  | cons c rest ih =>
    unfold skipBlanks
    rw [List.dropWhile_cons]
    split
    · exact ih
    · rename_i solid
      simpa using solid

end WiredViews
