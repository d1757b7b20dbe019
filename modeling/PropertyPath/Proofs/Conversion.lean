import PropertyPath.Proofs.Leaves
import PropertyPath.Proofs.Rounding
import PropertyPath.Value.Json

/-!
# What the conversions lose

A value and a JSON document are the same tree over two scalar types, so going from one to the other
and back replaces scalars and keeps the tree. Nearly all scalars come back as they were. A float
that is not finite has no JSON form and comes back as null. An integer above the signed range has no
in-memory form and comes back as a float, the nearest one.

* `Scalar.ofJson_toJson`, `Scalar.toJson_ofJson` — the two round trips of a scalar
* `roundsTo_rounded` — what becomes of the scalars of a JSON document
* `conversion_losses` — the two round trips of a tree, and when they lose nothing
-/

namespace PropertyPath

/-! ## Rounding integers -/

namespace Json.Primitive

/-- Not an integer above the signed range. -/
def FitsSigned : Primitive → Prop
  | integer n _ => n < 0x8000000000000000
  | null | boolean _ | float _ _ | string _ => True

/-- An integer above the signed range is replaced by the nearest float; all else is kept. -/
inductive RoundsTo : Primitive → Primitive → Prop where
  | kept {p : Primitive} (fits : p.FitsSigned) : RoundsTo p p
  | rounded {n : Int} {fits : FitsWord n} {x : Binary64} {finite : x.IsFinite}
      (above : 0x8000000000000000 ≤ n) (nearest : x.IsNearest n.toNat) :
      RoundsTo (integer n fits) (float x finite)

theorem toNat_lt_of_fitsWord {n : Int} (fits : FitsWord n) : n.toNat < Nat.pow 2 64 := by
  have hlt : n < 0x10000000000000000 := fits.2
  simp only [Nat.pow_eq]
  omega

theorem nearest_isFinite {n : Int} (fits : FitsWord n) : (Binary64.nearest n.toNat).IsFinite :=
  Binary64.nearest_isFinite (toNat_lt_of_fitsWord fits)

/-- Rounds an integer above the signed range to the nearest float. -/
def rounded : Primitive → Primitive
  | integer n fits =>
    if n < 0x8000000000000000 then integer n fits
    else float (.nearest n.toNat) (nearest_isFinite fits)
  | null => null
  | boolean b => boolean b
  | float x finite => float x finite
  | string s => string s

theorem rounded_of_fitsSigned {p : Primitive} (h : p.FitsSigned) : p.rounded = p := by
  cases p with
  | integer n fits => exact if_pos h
  | null | boolean _ | float _ _ | string _ => rfl

theorem rounded_integer {n : Int} (fits : FitsWord n) (h : 0x8000000000000000 ≤ n) :
    (integer n fits).rounded = float (.nearest n.toNat) (nearest_isFinite fits) :=
  if_neg (Int.not_lt.mpr h)

/-- Either rounding keeps a primitive, or it is an integer above the signed range. -/
theorem fitsSigned_or_above (p : Primitive) :
    p.FitsSigned ∨ ∃ n fits, 0x8000000000000000 ≤ n ∧ p = integer n fits := by
  cases p with
  | integer n fits =>
    by_cases h : n < 0x8000000000000000
    · exact .inl h
    · exact .inr ⟨n, fits, Int.not_lt.mp h, rfl⟩
  | null | boolean _ | float _ _ | string _ => exact .inl trivial

theorem fitsSigned_rounded (p : Primitive) : p.rounded.FitsSigned := by
  rcases fitsSigned_or_above p with h | ⟨n, fits, h, rfl⟩
  · rw [rounded_of_fitsSigned h]
    exact h
  · rw [rounded_integer fits h]
    trivial

theorem rounded_eq_self_iff (p : Primitive) : p.rounded = p ↔ p.FitsSigned :=
  ⟨fun h => h ▸ fitsSigned_rounded p, rounded_of_fitsSigned⟩

/-- **Rounding replaces integers above the signed range by the nearest float.** -/
theorem roundsTo_rounded (p : Primitive) : p.RoundsTo p.rounded := by
  rcases fitsSigned_or_above p with h | ⟨n, fits, h, rfl⟩
  · rw [rounded_of_fitsSigned h]
    exact .kept h
  · have hn : n.toNat ≠ 0 := by omega
    rw [rounded_integer fits h]
    exact .rounded h (Binary64.nearest_isNearest hn (toNat_lt_of_fitsWord fits))

end Json.Primitive

/-! ## Round trips of a scalar -/

namespace Scalar

/-- Not an infinity or a NaN. -/
def IsFinite : Scalar → Prop
  | float x => x.IsFinite
  | null | boolean _ | integer _ | string _ => True

/-- Puts null in the place of an infinity or a NaN. -/
def finiteOrNull : Scalar → Scalar
  | float x => if x.IsFinite then float x else null
  | null => null
  | boolean b => boolean b
  | integer n => integer n
  | string s => string s

theorem toJson_float {x : Binary64} (h : x.IsFinite) : toJson (float x) = .float x h := dif_pos h

theorem ofJson_integer_of_lt {n : Int} (fits : Json.FitsWord n) (h : n < 0x8000000000000000) :
    ofJson (.integer n fits) = integer (.ofInt n) := if_pos h

theorem ofJson_integer_of_ge {n : Int} (fits : Json.FitsWord n) (h : 0x8000000000000000 ≤ n) :
    ofJson (.integer n fits) = float (.nearest n.toNat) := if_neg (Int.not_lt.mpr h)

/-- **To JSON and back, a float that is not finite is lost.** -/
theorem ofJson_toJson (s : Scalar) : ofJson s.toJson = s.finiteOrNull := by
  cases s with
  | integer n =>
    rw [toJson, ofJson_integer_of_lt _ n.toInt_lt, Int64.ofInt_toInt]
    rfl
  | float x =>
    by_cases h : x.IsFinite
    · rw [toJson_float h, finiteOrNull, if_pos h]
      rfl
    · rw [toJson, dif_neg h, finiteOrNull, if_neg h]
      rfl
  | null | boolean _ | string _ => rfl

/-- **From JSON and back, an integer above the signed range is lost.** -/
theorem toJson_ofJson (p : Json.Primitive) : (ofJson p).toJson = p.rounded := by
  cases p with
  | integer n fits =>
    by_cases h : n < 0x8000000000000000
    · have hword : (Int64.ofInt n).toInt = n := Int64.toInt_ofInt_of_le fits.1 h
      have hsigned : (Json.Primitive.integer n fits).FitsSigned := h
      rw [ofJson_integer_of_lt fits h, Json.Primitive.rounded_of_fitsSigned hsigned]
      simp only [toJson, hword]
    · have habove : 0x8000000000000000 ≤ n := Int.not_lt.mp h
      rw [ofJson_integer_of_ge fits habove, Json.Primitive.rounded_integer fits habove]
      exact toJson_float _
  | float x finite => exact toJson_float finite
  | null | boolean _ | string _ => rfl

/-- Rounding a primitive first makes no difference to what is read. -/
theorem ofJson_rounded (p : Json.Primitive) : ofJson p.rounded = ofJson p := by
  rcases Json.Primitive.fitsSigned_or_above p with h | ⟨n, fits, h, rfl⟩
  · rw [Json.Primitive.rounded_of_fitsSigned h]
  · rw [Json.Primitive.rounded_integer fits h, ofJson_integer_of_ge fits h]
    rfl

end Scalar

/-- A finite number equals itself. -/
theorem Binary64.equiv_self {x : Binary64} (h : x.IsFinite) : x.equiv x = true := by
  have hnan : x.isNaN = false := by
    unfold isNaN
    have hne : x.exponentField ≠ 2047 := Nat.ne_of_lt h
    simp [hne]
  simp [equiv, hnan]

/-- What a scalar comes back as equals it exactly when it is not lost. -/
theorem Scalar.finiteOrNull_equiv_iff (s : Scalar) :
    s.finiteOrNull.equiv s = true ↔ s.IsFinite := by
  cases s with
  | float x =>
    by_cases h : x.IsFinite
    · rw [finiteOrNull, if_pos h]
      exact ⟨fun _ => h, Binary64.equiv_self⟩
    · rw [finiteOrNull, if_neg h]
      exact ⟨fun heq => by simp [equiv] at heq, fun hfinite => absurd hfinite h⟩
  | null | boolean _ | integer _ | string _ => simp [finiteOrNull, equiv, IsFinite]

/-! ## Round trips of a tree -/

namespace Value

theorem ofJson_toJson (v : Value) : ofJson v.toJson = v.map Scalar.finiteOrNull := by
  rw [ofJson, toJson, Document.map_map]
  exact congrArg (fun f => Document.map f v) (funext Scalar.ofJson_toJson)

theorem toJson_ofJson (json : Json) : (ofJson json).toJson = json.map Json.Primitive.rounded := by
  rw [ofJson, toJson, Document.map_map]
  exact congrArg (fun f => Document.map f json) (funext Scalar.toJson_ofJson)

/-- Rounding a document first makes no difference to the value that is read. -/
theorem ofJson_map_rounded (json : Json) :
    ofJson (json.map Json.Primitive.rounded) = ofJson json := by
  rw [ofJson, Document.map_map]
  exact congrArg (fun f => Document.map f json) (funext Scalar.ofJson_rounded)

/-- What comes back from JSON equals the value exactly when all its scalars are finite. -/
theorem ofJson_toJson_equiv_iff (v : Value) :
    equiv (ofJson v.toJson) v = true ↔ ∀ s ∈ v.leaves, s.IsFinite := by
  have hiff := Document.equivBy_map_iff Scalar.equiv Scalar.finiteOrNull id v
  rw [Document.map_id] at hiff
  rw [ofJson_toJson, equiv, hiff]
  simp only [id, Scalar.finiteOrNull_equiv_iff]

/-- A document comes back unchanged exactly when no integer in it is above the signed range. -/
theorem toJson_ofJson_eq_iff (json : Json) :
    (ofJson json).toJson = json ↔ ∀ p ∈ json.leaves, p.FitsSigned := by
  rw [toJson_ofJson, Document.map_eq_self_iff]
  simp only [Json.Primitive.rounded_eq_self_iff]

end Value

/-- **The two conversions undo each other, apart from two losses.** A value comes back from JSON
with null in the place of every float that is not finite, and so equals itself exactly when it has
none. A JSON document comes back with every integer above the signed range rounded to the nearest
float, and so unchanged exactly when it has none; and it comes back the same a second time. -/
theorem conversion_losses :
    (∀ v : Value, Value.ofJson v.toJson = v.map Scalar.finiteOrNull) ∧
    (∀ v : Value, Value.equiv (Value.ofJson v.toJson) v = true ↔ ∀ s ∈ v.leaves, s.IsFinite) ∧
    (∀ json : Json, (Value.ofJson json).toJson = json.map Json.Primitive.rounded) ∧
    (∀ p : Json.Primitive, p.RoundsTo p.rounded) ∧
    (∀ json : Json, (Value.ofJson json).toJson = json ↔ ∀ p ∈ json.leaves, p.FitsSigned) ∧
    ∀ json : Json,
      (Value.ofJson (Value.ofJson json).toJson).toJson = (Value.ofJson json).toJson := by
  refine ⟨Value.ofJson_toJson, Value.ofJson_toJson_equiv_iff, Value.toJson_ofJson,
    Json.Primitive.roundsTo_rounded, Value.toJson_ofJson_eq_iff, fun json => ?_⟩
  rw [Value.toJson_ofJson json, Value.ofJson_map_rounded, Value.toJson_ofJson]

end PropertyPath
