import PropertyPath.Decimal.Shortest

/-!
# Writing a decimal

Near one, a decimal is written out in places and always shows a point: `0.00001`, `1.5`, `100.0`.
Outside a range of exponents it is written with an exponent that always shows its sign: `1e+16`,
`2.5e-7`.
-/

namespace PropertyPath

namespace Decimal

/-- The exponents of the first digit for which a decimal is written out in places. -/
structure Layout where
  lowest : Int
  highest : Int

/-- Digits without a point, written out so that the first one has the given exponent. -/
def positional (digits : List Char) (exponent : Int) : List Char :=
  if exponent < 0 then
    '0' :: '.' :: (List.replicate (exponent.natAbs - 1) '0' ++ digits)
  else
    let width := exponent.toNat + 1
    let fraction := digits.drop width
    (digits ++ List.replicate (width - digits.length) '0').take width
      ++ '.' :: (if fraction.isEmpty then ['0'] else fraction)

/-- Digits with an exponent: one digit, the others after a point, and the signed exponent. -/
def scientific (digits : List Char) (exponent : Int) : List Char :=
  digits.take 1
    ++ (if digits.length ≤ 1 then [] else '.' :: digits.drop 1)
    ++ 'e' :: (if exponent < 0 then '-' else '+') :: Nat.toDigits 10 exponent.natAbs

/-- The text of a decimal in a layout. -/
def chars (layout : Layout) (d : Decimal) : List Char :=
  if layout.lowest ≤ d.exponent ∧ d.exponent ≤ layout.highest then positional d.digits d.exponent
  else scientific d.digits d.exponent

end Decimal

end PropertyPath
