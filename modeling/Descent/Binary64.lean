/-!
# Binary64 numbers

The numbers of the IEEE 754 format binary64, infinities included, as a sign and the other 63 bits.
Read as a natural number those bits grow with the number they stand for, and neighbours differ by
one; so rounding a quotient is a division that knows how fine the grid is around it.
`Binary64.nearest` rounds to nearest, ties to even.
-/

namespace Descent

/-- The quotient of two natural numbers, rounded to nearest, ties to even. -/
def roundHalfEven (n d : Nat) : Nat :=
  let q := n / d
  let r := n % d
  if 2 * r < d then q
  else if d < 2 * r then q + 1
  else q + q % 2

/-- A binary64 number: its sign, and its exponent and fraction bits as one natural number. -/
structure Binary64 where
  negative : Bool
  magnitude : Nat
deriving DecidableEq, Repr

namespace Binary64

/-- The number of fraction bits. -/
def fractionBits : Nat := 52

/-- The least positive number is two to the power of minus this. -/
def scale : Nat := 1074

/-- The exponent and fraction bits of infinity. -/
def infinity : Nat := 0x7FF <<< fractionBits

/-- How many binades the quotient `n / d` lies above the finest grid. -/
def binade (n d : Nat) : Nat := ((n <<< scale) / d).log2 - fractionBits

/-- The exponent and fraction bits of the number nearest to the quotient `n / d`. -/
def nearest (n d : Nat) : Nat :=
  let u := binade n d
  min infinity ((u <<< fractionBits) + roundHalfEven (n <<< scale) (d <<< u))

/-- The number nearest to the quotient `n / d`, with a sign. -/
def ofRatio (negative : Bool) (n d : Nat) : Binary64 := ⟨negative, nearest n d⟩

/-- Positive zero. -/
def zero : Binary64 := ⟨false, 0⟩

/-- All 64 bits as a natural number. -/
def toBits (x : Binary64) : Nat := (if x.negative then 1 <<< 63 else 0) + x.magnitude

/-- Equality of numbers: the two zeros are equal. -/
def same (x y : Binary64) : Bool :=
  x.magnitude == y.magnitude && (x.magnitude == 0 || x.negative == y.negative)

theorem nearest_le_infinity (n d : Nat) : nearest n d ≤ infinity := Nat.min_le_left ..

/-- A zero has no magnitude bits, however it is written. -/
theorem nearest_zero (d : Nat) : nearest 0 d = 0 := by
  simp [nearest, binade, roundHalfEven]

end Binary64

end Descent
