import PropertyPath.Segment

/-!
# Why a path does not resolve

There are two causes: a value has the wrong shape for what is asked of it, or an object lacks a
field. Both carry the offending value. A wrong shape is told beside the one that was expected, and
`mismatch` is the one place where such an error is made, with the shape that the value has.
-/

namespace PropertyPath

/-- Why a path does not resolve, with the value that it failed at. -/
inductive ResolveError (σ : Type) where
  | shapeMismatch (expected actual : Shape) (value : Document σ)
  | missingField (field : String) (value : Document σ)
  deriving DecidableEq

namespace ResolveError

variable {σ ρ : Type}

/-- The error of a value that has another shape than the expected one. -/
def mismatch (expected : Shape) (v : Document σ) : ResolveError σ :=
  shapeMismatch expected v.shape v

theorem mismatch_eq_shapeMismatch_iff {expected expected' actual : Shape} {v w : Document σ} :
    mismatch expected v = shapeMismatch expected' actual w ↔
      expected = expected' ∧ v.shape = actual ∧ v = w := by
  rw [mismatch, shapeMismatch.injEq]

/-- The offending value. -/
def value : ResolveError σ → Document σ
  | shapeMismatch _ _ value | missingField _ value => value

/-- Replaces every scalar of the offending value. -/
def map (f : σ → ρ) : ResolveError σ → ResolveError ρ
  | shapeMismatch expected actual value => shapeMismatch expected actual (value.map f)
  | missingField field value => missingField field (value.map f)

/-- Equality of errors, with floats compared as numbers. -/
def equiv : ResolveError Scalar → ResolveError Scalar → Bool
  | shapeMismatch expected actual v, shapeMismatch expected' actual' w =>
    expected = expected' && actual = actual' && Value.equiv v w
  | missingField field v, missingField field' w => field == field' && Value.equiv v w
  | _, _ => false

/-- The text of an error. The name of a missing field is written as it is. -/
def message : ResolveError Scalar → String
  | shapeMismatch expected _ v =>
    s!"Shape mismatch: expected {expected.name}, got {Value.typeName v} with value: {Value.text v}"
  | missingField field v =>
    s!"Missing field: expected object with field '{field}', got: {Value.text v}"

end ResolveError

/-! ## Checked access -/

/-- A computation that may fail as resolving does. -/
abbrev Attempt (σ : Type) := Except (ResolveError σ)

namespace Document

variable {σ : Type}

/-- The value of a field, or why there is none. -/
def field (v : Document σ) (name : String) : Attempt σ (Document σ) :=
  match v.fields? with
  | none => .error (.mismatch .object v)
  | some fields =>
    match fields.get? name with
    | none => .error (.missingField name v)
    | some value => .ok value

/-- The elements of an array, or why there are none. -/
def elements (v : Document σ) : Attempt σ (List (Document σ)) :=
  match v.items? with
  | none => .error (.mismatch .array v)
  | some items => .ok items

end Document

/-- What an array segment fans out over: the elements of the field that it names, or of the value
itself when it names none. -/
def Segment.elements {σ : Type} (s : Segment) (v : Document σ) : Attempt σ (List (Document σ)) := do
  let target ← if s.hasName then v.field s.name else pure v
  target.elements

/-- Equality of outcomes, with floats compared as numbers. -/
def Attempt.equiv : Attempt Scalar Value → Attempt Scalar Value → Bool
  | .ok v, .ok w => Value.equiv v w
  | .error e, .error e' => e.equiv e'
  | _, _ => false

end PropertyPath
