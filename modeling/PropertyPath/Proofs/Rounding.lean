import Mathlib.Data.Nat.Dist
import PropertyPath.Binary64.Nearest

/-!
# Rounding to the nearest number

Distances are measured in units of the smallest positive magnitude, `2 ^ -1074`. In these units all
finite numbers are whole, and so is every natural number.

## Mechanism

Let `2 ^ e` be the largest power of two not above `n`. A number whose last place is at least that of
the rounded one is a multiple of it, and of all multiples the rounded one is the nearest
(`dist_divNearestEven_le`). A number with a finer last place is below `2 ^ e`, which is a multiple
itself and nearer to `n`.

* `units_nearest` — the rounded number, as a multiple of its last place
* `nearest_isNearest` — no finite number is nearer, and of two equally near the even one is taken
-/

namespace PropertyPath

/-! ## The nearest multiple -/

theorem divNearestEven_cases (num den : Nat) :
    (divNearestEven num den = num / den ∧ 2 * (num % den) ≤ den) ∨
      (divNearestEven num den = num / den + 1 ∧ den ≤ 2 * (num % den)) := by
  unfold divNearestEven
  split <;> omega

/-- A multiple lies at most at a quotient or at least one step above it. -/
theorem mul_le_or_add_le_mul (k q den : Nat) : k * den ≤ q * den ∨ q * den + den ≤ k * den := by
  rcases Nat.lt_or_ge q k with h | h
  · have hmul := Nat.mul_le_mul_right den (Nat.succ_le_of_lt h)
    rw [Nat.succ_mul] at hmul
    exact .inr hmul
  · exact .inl (Nat.mul_le_mul_right den h)

/-- **No multiple is nearer than the rounded quotient.** -/
theorem dist_divNearestEven_le {num den : Nat} (hden : 0 < den) (k : Nat) :
    Nat.dist num (divNearestEven num den * den) ≤ Nat.dist num (k * den) := by
  have hnum := Nat.div_add_mod' num den
  have hmod := Nat.mod_lt num hden
  have hside := mul_le_or_add_le_mul k (num / den) den
  unfold Nat.dist
  rcases divNearestEven_cases num den with ⟨hq, hhalf⟩ | ⟨hq, hhalf⟩
  · rw [hq]
    omega
  · rw [hq, Nat.succ_mul]
    omega

/-- A multiple that is as near is the other one of a tie, which the even quotient wins. -/
theorem even_divNearestEven_of_dist_eq {num den : Nat} (hden : 0 < den) {k : Nat}
    (hdist : Nat.dist num (k * den) = Nat.dist num (divNearestEven num den * den))
    (hne : k ≠ divNearestEven num den) : divNearestEven num den % 2 = 0 := by
  have hnum := Nat.div_add_mod' num den
  have hmod := Nat.mod_lt num hden
  -- next to `num` there are two multiples, and all others are a whole step further away
  have hside : k * den + den ≤ num / den * den ∨ k = num / den ∨ k = num / den + 1 ∨
      num / den * den + 2 * den ≤ k * den := by
    rcases Nat.lt_or_ge k (num / den) with h | h
    · have hmul := Nat.mul_le_mul_right den (Nat.succ_le_of_lt h)
      rw [Nat.succ_mul] at hmul
      exact .inl hmul
    · rcases Nat.lt_or_ge (num / den + 1) k with h' | h'
      · have hmul := Nat.mul_le_mul_right den (Nat.succ_le_of_lt h')
        rw [Nat.succ_mul, Nat.succ_mul] at hmul
        exact .inr (.inr (.inr (by omega)))
      · omega
  have hsucc : (num / den + 1) * den = num / den * den + den := Nat.succ_mul _ _
  unfold Nat.dist at hdist
  unfold divNearestEven at hdist hne ⊢
  split
  · next h =>
    rw [if_pos h] at hdist hne
    rcases hside with hk | rfl | rfl | hk
    · omega
    · exact absurd rfl hne
    · omega
    · omega
  · next h =>
    rw [if_neg h] at hdist hne
    rcases hside with hk | rfl | rfl | hk
    · omega
    · omega
    · exact absurd rfl hne
    · omega

namespace Binary64

/-! ## Distances -/

/-- The magnitude of a finite number, in units of the smallest positive one. -/
def units (x : Binary64) : Nat := x.significand * Nat.pow 2 x.scale

/-- The place of the last bit of one, counted from the smallest positive magnitude. -/
def lastPlaceOfOne : Nat := 1022

/-- One, in units of the smallest positive magnitude: its significand at its last place. -/
def unitsOfOne : Nat := Nat.pow 2 52 * Nat.pow 2 lastPlaceOfOne

/-- The distance of a finite number to a natural number, in units of the smallest positive
magnitude. -/
def distance (x : Binary64) (n : Nat) : Nat :=
  if x.isNegative then n * unitsOfOne + x.units else Nat.dist (n * unitsOfOne) x.units

/-- No finite number is nearer to `n`, and if another one is as near, the significand is even. -/
structure IsNearest (x : Binary64) (n : Nat) : Prop where
  finite : x.IsFinite
  closest : ∀ y : Binary64, y.IsFinite → x.distance n ≤ y.distance n
  even : ∀ y : Binary64, y.IsFinite → y.distance n = x.distance n → y.units ≠ x.units →
    x.significand % 2 = 0

/-! ## The rounded number -/

theorem place_pos (place : Nat) : 0 < Nat.pow 2 place := Nat.two_pow_pos place

theorem place_add (place more : Nat) :
    Nat.pow 2 (place + more) = Nat.pow 2 place * Nat.pow 2 more := Nat.pow_add 2 place more

theorem significand_lt (x : Binary64) : x.significand < Nat.pow 2 53 := by
  have hfraction : x.fractionField < Nat.pow 2 52 := Nat.mod_lt _ (by decide)
  unfold significand
  simp only [Nat.pow_eq] at hfraction ⊢
  split <;> omega

/-- The significand that a number is rounded to, before a carry into the next power of two. -/
def roundedSignificand (n : Nat) : Nat := divNearestEven (n * Nat.pow 2 52) (Nat.pow 2 n.log2)

theorem roundedSignificand_bounds {n : Nat} (hn : n ≠ 0) :
    Nat.pow 2 52 ≤ roundedSignificand n ∧ roundedSignificand n ≤ Nat.pow 2 53 := by
  have hscaled := scaled_lt n
  have hquot : Nat.pow 2 52 ≤ n * Nat.pow 2 52 / Nat.pow 2 n.log2 := by
    rw [Nat.le_div_iff_mul_le (place_pos _), Nat.mul_comm]
    exact Nat.mul_le_mul_right _ (Nat.log2_self_le hn)
  unfold roundedSignificand
  rcases divNearestEven_cases (n * Nat.pow 2 52) (Nat.pow 2 n.log2) with ⟨h, _⟩ | ⟨h, _⟩ <;> omega

/-- The bits of the rounded number. A carry of the significand goes into the exponent field. -/
theorem toNat_bits_nearest {n : Nat} (hn : n ≠ 0) (h : n < Nat.pow 2 64) :
    (nearest n).bits.toNat
      = (n.log2 + 1023) * Nat.pow 2 52 + (roundedSignificand n - Nat.pow 2 52) := by
  have hlog : n.log2 < 64 := (Nat.log2_lt hn).2 h
  have hbounds := roundedSignificand_bounds hn
  have hbits : (nearest n).bits = .ofNat (min ((n.log2 + 1023) * Nat.pow 2 52
      + (roundedSignificand n - Nat.pow 2 52)) infinityBits) := by
    rw [nearest, if_neg hn]
    rfl
  rw [hbits, UInt64.toNat_ofNat']
  simp only [Nat.pow_eq, infinityBits] at hbounds ⊢
  omega

theorem isNegative_nearest {n : Nat} (hn : n ≠ 0) (h : n < Nat.pow 2 64) :
    (nearest n).isNegative = false := by
  have hlog : n.log2 < 64 := (Nat.log2_lt hn).2 h
  have hbounds := roundedSignificand_bounds hn
  unfold isNegative
  rw [toNat_bits_nearest hn h, decide_eq_false_iff_not]
  simp only [Nat.pow_eq] at hbounds ⊢
  omega

/-- The fields of the rounded number, without and with a carry. -/
theorem fields_nearest {n : Nat} (hn : n ≠ 0) (h : n < Nat.pow 2 64) :
    (roundedSignificand n < Nat.pow 2 53 ∧ (nearest n).exponentField = n.log2 + 1023 ∧
        (nearest n).fractionField + Nat.pow 2 52 = roundedSignificand n) ∨
      (roundedSignificand n = Nat.pow 2 53 ∧ (nearest n).exponentField = n.log2 + 1024 ∧
        (nearest n).fractionField = 0) := by
  have hlog : n.log2 < 64 := (Nat.log2_lt hn).2 h
  have hbounds := roundedSignificand_bounds hn
  unfold exponentField fractionField
  rw [toNat_bits_nearest hn h]
  simp only [Nat.pow_eq] at hbounds ⊢
  omega

/-- **The rounded number is the rounded significand at its place.** -/
theorem units_nearest {n : Nat} (hn : n ≠ 0) (h : n < Nat.pow 2 64) :
    (nearest n).units = roundedSignificand n * Nat.pow 2 (n.log2 + lastPlaceOfOne) := by
  rcases fields_nearest hn h with ⟨_, hexponent, hfraction⟩ | ⟨hcarry, hexponent, hfraction⟩
  · have hsignificand : (nearest n).significand = roundedSignificand n := by
      unfold significand
      rw [if_neg (by omega)]
      omega
    rw [units, hsignificand, scale, hexponent]
    rfl
  · have hsignificand : (nearest n).significand = Nat.pow 2 52 := by
      unfold significand
      rw [if_neg (by omega), hfraction, Nat.add_zero]
    have hplace : Nat.pow 2 (n.log2 + 1024 - 1) = Nat.pow 2 (n.log2 + lastPlaceOfOne) * 2 :=
      place_add (n.log2 + lastPlaceOfOne) 1
    rw [units, hsignificand, scale, hexponent, hcarry, hplace, Nat.mul_comm _ 2, ← Nat.mul_assoc]

theorem even_significand_nearest {n : Nat} (hn : n ≠ 0) (h : n < Nat.pow 2 64)
    (heven : roundedSignificand n % 2 = 0) : (nearest n).significand % 2 = 0 := by
  unfold significand
  simp only [Nat.pow_eq]
  rcases fields_nearest hn h with ⟨_, hexponent, hfraction⟩ | ⟨_, hexponent, hfraction⟩
  · simp only [Nat.pow_eq] at hfraction
    rw [if_neg (by omega)]
    omega
  · rw [if_neg (by omega), hfraction]

/-! ## Nearness -/

/-- A finite number is a multiple of a place, or is below all numbers that have this place as their
last one. -/
theorem units_multiple_or_lt (y : Binary64) (place : Nat) :
    (∃ k, y.units = k * Nat.pow 2 place) ∨ y.units < Nat.pow 2 52 * Nat.pow 2 place := by
  unfold units
  rcases Nat.lt_or_ge y.scale place with hlt | hge
  · have hpow : Nat.pow 2 (y.scale + 1) ≤ Nat.pow 2 place :=
      Nat.pow_le_pow_right (by decide) hlt
    have hunits : y.significand * Nat.pow 2 y.scale < Nat.pow 2 53 * Nat.pow 2 y.scale :=
      Nat.mul_lt_mul_of_pos_right (significand_lt y) (place_pos _)
    rw [place_add] at hpow
    simp only [Nat.pow_eq] at hpow hunits ⊢
    exact .inr (by omega)
  · refine .inl ⟨y.significand * Nat.pow 2 (y.scale - place), ?_⟩
    rw [Nat.mul_assoc, ← place_add, Nat.sub_add_cancel hge]

/-- Distances to multiples of the last place are those of the rounded quotient. -/
theorem dist_multiple (n k : Nat) :
    Nat.dist (n * unitsOfOne) (k * Nat.pow 2 (n.log2 + lastPlaceOfOne))
      = Nat.dist (n * Nat.pow 2 52) (k * Nat.pow 2 n.log2) * Nat.pow 2 lastPlaceOfOne := by
  rw [unitsOfOne, place_add n.log2, ← Nat.mul_assoc, ← Nat.mul_assoc, Nat.dist_mul_right]

/-- No magnitude is nearer to `n` than the rounded one, and one that is as near makes a tie. -/
theorem dist_units_nearest {n : Nat} (hn : n ≠ 0) (h : n < Nat.pow 2 64) (y : Binary64) :
    Nat.dist (n * unitsOfOne) (nearest n).units ≤ Nat.dist (n * unitsOfOne) y.units ∧
      (Nat.dist (n * unitsOfOne) y.units = Nat.dist (n * unitsOfOne) (nearest n).units →
        y.units ≠ (nearest n).units → roundedSignificand n % 2 = 0) := by
  have hden := place_pos n.log2
  rw [units_nearest hn h]
  rcases units_multiple_or_lt y (n.log2 + lastPlaceOfOne) with ⟨k, hk⟩ | hlt
  · rw [hk, dist_multiple, dist_multiple]
    refine ⟨Nat.mul_le_mul_right _ (dist_divNearestEven_le hden k), fun hdist hne => ?_⟩
    have hquot := Nat.eq_of_mul_eq_mul_right (place_pos lastPlaceOfOne) hdist
    exact even_divNearestEven_of_dist_eq hden hquot fun heq => hne (by rw [heq]; rfl)
  · -- the first number with this last place is a multiple of it, and lies between `y` and `n`
    have hfirst : Nat.pow 2 52 * Nat.pow 2 (n.log2 + lastPlaceOfOne) ≤ n * unitsOfOne := by
      have hlog : Nat.pow 2 n.log2 ≤ n := Nat.log2_self_le hn
      rw [unitsOfOne, place_add n.log2, Nat.mul_left_comm]
      exact Nat.mul_le_mul_right (Nat.pow 2 52 * Nat.pow 2 lastPlaceOfOne) hlog
    have hle : Nat.dist (n * unitsOfOne)
          (roundedSignificand n * Nat.pow 2 (n.log2 + lastPlaceOfOne))
        ≤ Nat.dist (n * unitsOfOne) (Nat.pow 2 52 * Nat.pow 2 (n.log2 + lastPlaceOfOne)) := by
      rw [dist_multiple, dist_multiple]
      exact Nat.mul_le_mul_right _ (dist_divNearestEven_le hden _)
    unfold Nat.dist at hle ⊢
    exact ⟨by omega, fun hdist _ => by omega⟩

/-- **No finite number is nearer than the rounded one,** and a tie goes to the even one. -/
theorem nearest_isNearest {n : Nat} (hn : n ≠ 0) (h : n < Nat.pow 2 64) :
    (nearest n).IsNearest n := by
  have hdistance : ∀ y : Binary64, Nat.dist (n * unitsOfOne) y.units ≤ y.distance n := by
    intro y
    unfold distance Nat.dist
    split <;> omega
  have hrounded : (nearest n).distance n = Nat.dist (n * unitsOfOne) (nearest n).units := by
    rw [distance, if_neg (by simp [isNegative_nearest hn h])]
  refine ⟨nearest_isFinite h, fun y _ => ?_, fun y _ hdist hne => ?_⟩
  · rw [hrounded]
    exact Nat.le_trans (dist_units_nearest hn h y).1 (hdistance y)
  · refine even_significand_nearest hn h ((dist_units_nearest hn h y).2 ?_ hne)
    have hle := (dist_units_nearest hn h y).1
    have hy := hdistance y
    omega

end Binary64

end PropertyPath
