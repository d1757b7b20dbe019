import PropertyPath.Binary64.Basic
import PropertyPath.Document.Basic

/-!
# Values

A value is a document over in-memory scalars. An integer is a signed 64-bit word and never equals a
float; a float may be infinite or a NaN.

Two equalities are needed. `=` tells floats apart by their bits. `Value.equiv` compares them as
numbers, so that it takes the two zeros for equal and is not reflexive where a NaN occurs.
-/

namespace PropertyPath

/-- What stands at the leaves of a value. -/
inductive Scalar where
  | null
  | boolean (value : Bool)
  | integer (value : Int64)
  | float (value : Binary64)
  | string (value : String)
  deriving DecidableEq, Inhabited

/-- An in-memory value. -/
abbrev Value := Document Scalar

/-- Equality of scalars, with floats compared as numbers. -/
def Scalar.equiv : Scalar → Scalar → Bool
  | float x, float y => x.equiv y
  | a, b => a == b

/-- The name of a scalar's type. -/
def Scalar.typeName : Scalar → String
  | null => "null"
  | boolean _ => "boolean"
  | integer _ => "integer"
  | float _ => "float"
  | string _ => "string"

namespace Value

/-! ## Making values -/

/-- The null value. -/
def null : Value := .scalar .null

/-- The value of a boolean. -/
def ofBool (b : Bool) : Value := .scalar (.boolean b)

/-- The value of an integer. -/
def ofInt64 (n : Int64) : Value := .scalar (.integer n)

/-- The value of a float. -/
def ofBinary64 (x : Binary64) : Value := .scalar (.float x)

/-- The value of a string. -/
def ofString (s : String) : Value := .scalar (.string s)

/-! ## Type names and equality -/

/-- The name of a value's type. -/
def typeName : Value → String
  | .scalar s => s.typeName
  | .array _ => "array"
  | .object _ => "object"

/-- Equality of values, with floats compared as numbers. -/
def equiv (v w : Value) : Bool := Document.equivBy Scalar.equiv v w

end Value

/-- Equality of maps of values, with floats compared as numbers. -/
def Fields.equiv (fields others : Fields Value) : Bool :=
  Document.equivFields Scalar.equiv fields others

end PropertyPath
