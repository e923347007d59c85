namespace WiredViews

-- Digits times a power of ten, with a sign that zero has too. The digits are the
-- fewest that tell the number from its neighbours among the binary numbers of 53
-- bits; no zero stands at their end, and the exponent of zero is zero.
structure Decimal where
  negative : Bool
  digits : Nat
  exponent : Int
deriving DecidableEq, Inhabited

def withoutTrailingZeros : Nat → Nat → Nat × Nat
  | 0, number => (number, 0)
  | limit + 1, number =>
    if number % 10 = 0 then
      let (shorter, zeros) := withoutTrailingZeros limit (number / 10)
      (shorter, zeros + 1)
    else (number, 0)

-- The nearest number of 53 bits with nothing but zeros after them. Halfway between
-- two of them it is the one whose last bit is zero.
def nearestBinary (number : Nat) : Nat :=
  let unit := Nat.pow 2 (number.log2 + 1 - 53)
  let below := number / unit
  let rest := number % unit
  if unit < 2 * rest || (unit = 2 * rest && below % 2 = 1) then (below + 1) * unit
  else below * unit

namespace Decimal

def ofDigits (negative : Bool) (digits : Nat) (exponent : Int) : Decimal :=
  if digits = 0 then ⟨negative, 0, 0⟩
  else
    let (shorter, zeros) := withoutTrailingZeros (Nat.repr digits).length digits
    ⟨negative, shorter, exponent + zeros⟩

def same (left right : Decimal) : Bool :=
  left = right || (left.digits = 0 && right.digits = 0)

def whole? (number : Decimal) : Option Int :=
  if number.exponent < 0 then none
  else
    let size : Int := nearestBinary (number.digits * Nat.pow 10 number.exponent.toNat)
    some (if number.negative then -size else size)

-- Positional between 0.0001 and 10^16, with one digit after the point at least;
-- outside that range one leading digit and an exponent of two digits at least.
def body (number : Decimal) : List Char :=
  let digits := (Nat.repr number.digits).toList
  let point : Int := digits.length + number.exponent
  if point < -3 || 16 < point then
    let power := (Nat.repr (point - 1).natAbs).toList
    digits.take 1 ++ (if digits.length = 1 then [] else '.' :: digits.tail) ++
      ['e', if point < 1 then '-' else '+'] ++ List.replicate (2 - power.length) '0' ++ power
  else if point ≤ 0 then ['0', '.'] ++ List.replicate point.natAbs '0' ++ digits
  else if number.exponent < 0 then digits.take point.toNat ++ '.' :: digits.drop point.toNat
  else digits ++ List.replicate number.exponent.toNat '0' ++ ['.', '0']

def text (number : Decimal) : String :=
  String.ofList ((if number.negative then ['-'] else []) ++ number.body)

end Decimal
end WiredViews
