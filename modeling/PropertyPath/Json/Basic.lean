import PropertyPath.Binary64.Basic
import PropertyPath.Document.Basic

/-!
# JSON documents

A JSON document is a document over JSON primitives. Its numbers are of three sorts: integers that
fit a signed 64-bit word, integers that fit an unsigned one only, and finite binary64 numbers. The
first two are one constructor, with the range in its type; a number is never infinite or a NaN.
-/

namespace PropertyPath

namespace Json

/-- The integers that a JSON number holds exactly: signed or unsigned words of 64 bits. -/
def FitsWord (n : Int) : Prop := -0x8000000000000000 ≤ n ∧ n < 0x10000000000000000

instance (n : Int) : Decidable (FitsWord n) := inferInstanceAs (Decidable (_ ∧ _))

/-- What stands at the leaves of a JSON document. -/
inductive Primitive where
  | null
  | boolean (value : Bool)
  | integer (value : Int) (fits : FitsWord value)
  | float (value : Binary64) (finite : value.IsFinite)
  | string (value : String)
  deriving DecidableEq

end Json

/-- A JSON document. -/
abbrev Json := Document Json.Primitive

end PropertyPath
