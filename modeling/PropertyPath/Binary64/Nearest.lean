import PropertyPath.Binary64.Basic

/-!
# The nearest binary64 number to a natural number

With `2 ^ e` the largest power of two not above `n`, the significand is `n * 2 ^ 52 / 2 ^ e` rounded
to a whole number, the even one of two equally near. A significand that rounds up to `2 ^ 53`
carries into the exponent field by itself, since the fields lie side by side.

* `nearest_isFinite` — an unsigned 64-bit integer has a finite nearest number
-/

namespace PropertyPath

/-- The whole number nearest to `num / den`, the even one of two equally near. -/
def divNearestEven (num den : Nat) : Nat :=
  if 2 * (num % den) < den ∨ 2 * (num % den) = den ∧ num / den % 2 = 0 then num / den
  else num / den + 1

theorem divNearestEven_le (num den : Nat) : divNearestEven num den ≤ num / den + 1 := by
  unfold divNearestEven
  split <;> omega

namespace Binary64

/-- The bits of positive infinity, which lie just above those of the largest finite number. -/
def infinityBits : Nat := 2047 * Nat.pow 2 52

/-- The number nearest to `n`. Where two are equally near, the one with an even significand. -/
def nearest (n : Nat) : Binary64 :=
  if n = 0 then ⟨0⟩
  else
    let e := n.log2
    let significand := divNearestEven (n * Nat.pow 2 52) (Nat.pow 2 e)
    ⟨.ofNat (min ((e + 1023) * Nat.pow 2 52 + (significand - Nat.pow 2 52)) infinityBits)⟩

theorem scaled_lt (n : Nat) : n * Nat.pow 2 52 / Nat.pow 2 n.log2 < Nat.pow 2 53 := by
  simp only [Nat.pow_eq]
  have hlt : n < 2 ^ n.log2 * 2 := by
    have h := Nat.lt_log2_self (n := n)
    rwa [Nat.pow_succ] at h
  rw [Nat.div_lt_iff_lt_mul (Nat.two_pow_pos _)]
  omega

/-- An unsigned 64-bit integer has a finite nearest number. -/
theorem nearest_isFinite {n : Nat} (h : n < Nat.pow 2 64) : (nearest n).IsFinite := by
  unfold nearest
  split
  · decide
  · next hn =>
    have hlog : n.log2 < 64 := (Nat.log2_lt hn).2 h
    have hsig := divNearestEven_le (n * Nat.pow 2 52) (Nat.pow 2 n.log2)
    have hscaled := scaled_lt n
    simp only [Nat.pow_eq] at hsig hscaled
    simp only [Nat.pow_eq, IsFinite, exponentField, infinityBits, UInt64.toNat_ofNat']
    omega

end Binary64

end PropertyPath
