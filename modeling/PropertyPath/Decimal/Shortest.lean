import PropertyPath.Binary64.Basic

/-!
# The shortest decimal that reads back

A finite binary64 number stands for all reals that round to it, an interval around its value. Of
the decimals in that interval the shortest is wanted, and of several shortest ones the nearest to
the value.

## Mechanism

In units of `10 ^ -1076` the value and both ends of its interval are whole numbers, so everything
is exact. A grid of step `10 ^ k` has two points next to the value, one not above and one above.
If any point of the grid lies in the interval, one of these two does. The grids are tried from the
coarsest, which has one digit at the value's magnitude, to the finest, which has seventeen; the
first with a point in the interval has the fewest digits.
-/

namespace PropertyPath

/-- The decimal `d₁.d₂d₃… * 10 ^ exponent`, by its digits. -/
structure Decimal where
  digits : List Char
  exponent : Int
  deriving DecidableEq

namespace Decimal

/-- The decimal `coefficient * 10 ^ power`, without zeros at the end of its digits. -/
def ofScaled (coefficient : Nat) (power : Int) : Decimal :=
  let digits := Nat.toDigits 10 coefficient
  ⟨(digits.reverse.dropWhile (· == '0')).reverse, power + digits.length - 1⟩

/-! ## Rounding intervals -/

/-- A value, the ends of the interval that rounds to it, and whether the ends belong to it. -/
structure Interval where
  lower : Nat
  value : Nat
  upper : Nat
  closed : Bool

/-- A point lies in the interval. -/
def Interval.contains (i : Interval) (point : Nat) : Bool :=
  if i.closed then i.lower ≤ point && point ≤ i.upper else i.lower < point && point < i.upper

/-- Of the two points of a grid next to the value, the one in the interval; if both are in it, the
nearer one; if both are equally near, the even one. The point is given as a multiple of the step. -/
def Interval.pointOn (i : Interval) (step : Nat) : Option Nat :=
  let below := i.value / step
  let above := below + 1
  let toBelow := i.value - below * step
  let toAbove := above * step - i.value
  match i.contains (below * step), i.contains (above * step) with
  | false, false => none
  | true, false => some below
  | false, true => some above
  | true, true =>
    if toBelow < toAbove ∨ toBelow = toAbove ∧ below % 2 = 0 then some below else some above

/-- The power of ten that the unit of intervals stands for, negated. -/
def unitPlaces : Nat := 1076

/-- The interval of a finite number, in units of `10 ^ -unitPlaces`. It reaches halfway to the
neighbours, and the neighbour below is half as far when the significand is the smallest of its
exponent. The ends round to the number when its significand is even. -/
def Interval.of (x : Binary64) : Interval :=
  let quarter := Nat.pow 2 x.scale * Nat.pow 5 unitPlaces
  let down := if x.fractionField = 0 ∧ 1 < x.exponentField then 1 else 2
  { lower := (4 * x.significand - down) * quarter
    value := 4 * x.significand * quarter
    upper := (4 * x.significand + 2) * quarter
    closed := x.significand % 2 == 0 }

/-! ## The search -/

/-- The number of decimal digits. The power of ten that is taken out first is not above the number,
since `10 ^ 3` is below `2 ^ 10`, and leaves only a few digits to count. -/
def digitCount (n : Nat) : Nat :=
  let low := 3 * (n.log2 / 10)
  low + (Nat.toDigits 10 (n / Nat.pow 10 low)).length

/-- The most digits that a binary64 number ever needs. -/
def maxDigits : Nat := 17

/-- The point on the coarsest grid that has one in the interval, as a multiple of `10 ^ k` and `k`.
The value itself, as a multiple of one, stands in where no grid has a point. -/
def Interval.coarsestPoint (i : Interval) : Nat × Nat :=
  let top := digitCount i.value
  let powers := (List.range maxDigits).map (fun n => top - (n + 1))
  (powers.findSome? fun k => (i.pointOn (Nat.pow 10 k)).map (·, k)).getD (i.value, 0)

/-- The shortest decimal that rounds to the magnitude of a finite number, nearest to it. -/
def shortest (x : Binary64) : Decimal :=
  if x.significand = 0 then ⟨['0'], 0⟩
  else
    let point := (Interval.of x).coarsestPoint
    ofScaled point.1 (point.2 - unitPlaces)

end Decimal

end PropertyPath
