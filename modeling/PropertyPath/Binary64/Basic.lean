/-!
# Binary64 numbers

A binary64 number is its 64 bits: a sign, an eleven-bit exponent field and a 52-bit fraction field
(IEEE 754). All that is asked of a number here is read off these fields in natural arithmetic.

The magnitude of a finite number is `significand * 2 ^ scale` times `2 ^ -1074`, the smallest
positive magnitude, so that no negative power is needed.
-/

namespace PropertyPath

/-- A binary64 number, told apart from others by its bits. -/
structure Binary64 where
  bits : UInt64
  deriving DecidableEq, Inhabited

namespace Binary64

/-! ## Fields -/

/-- The exponent field. All ones mark an infinity or a NaN. -/
def exponentField (x : Binary64) : Nat := x.bits.toNat / Nat.pow 2 52 % Nat.pow 2 11

/-- The fraction field. -/
def fractionField (x : Binary64) : Nat := x.bits.toNat % Nat.pow 2 52

/-- The sign bit is set. -/
def isNegative (x : Binary64) : Bool := Nat.pow 2 63 ≤ x.bits.toNat

/-- A finite number: neither an infinity nor a NaN. -/
def IsFinite (x : Binary64) : Prop := x.exponentField < 2047

instance (x : Binary64) : Decidable x.IsFinite := inferInstanceAs (Decidable (_ < _))

/-- Not a number. -/
def isNaN (x : Binary64) : Bool := x.exponentField == 2047 && x.fractionField != 0

/-- Zero of either sign. -/
def isZero (x : Binary64) : Bool := x.bits.toNat % Nat.pow 2 63 == 0

/-! ## Magnitude -/

/-- The significand, with the leading bit that the fields leave out for normal numbers. -/
def significand (x : Binary64) : Nat :=
  if x.exponentField = 0 then x.fractionField else Nat.pow 2 52 + x.fractionField

/-- The power of two that multiplies the significand, counted from the smallest one. -/
def scale (x : Binary64) : Nat := x.exponentField - 1

/-! ## Comparison -/

/-- Equality of numbers: a NaN differs from everything, and the two zeros are equal. -/
def equiv (x y : Binary64) : Bool :=
  !x.isNaN && !y.isNaN && (x == y || x.isZero && y.isZero)

end Binary64

end PropertyPath
