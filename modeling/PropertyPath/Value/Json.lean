import PropertyPath.Binary64.Nearest
import PropertyPath.Json.Text
import PropertyPath.Value.Basic

/-!
# Values and JSON documents

Both conversions replace scalars and keep the tree.

* to JSON — an infinity or a NaN becomes null, all else is kept
* from JSON — an integer above the signed range becomes the nearest float, all else is kept; an
  integral float stays a float
-/

namespace PropertyPath

/-! ## To JSON -/

/-- A signed 64-bit word is an integer that a JSON number holds. -/
theorem Json.fitsWord_toInt (n : Int64) : Json.FitsWord n.toInt := by
  have hlo := n.le_toInt
  have hhi := n.toInt_lt
  unfold Json.FitsWord
  omega

/-- The JSON primitive that stands for a scalar. -/
def Scalar.toJson : Scalar → Json.Primitive
  | null => .null
  | boolean b => .boolean b
  | integer n => .integer n.toInt (Json.fitsWord_toInt n)
  | float x => if finite : x.IsFinite then .float x finite else .null
  | string s => .string s

/-- The JSON document that stands for a value. -/
def Value.toJson (v : Value) : Json := v.map Scalar.toJson

/-! ## From JSON -/

/-- The scalar that a JSON primitive is read as. -/
def Scalar.ofJson : Json.Primitive → Scalar
  | .null => null
  | .boolean b => boolean b
  | .integer n _ => if n < 0x8000000000000000 then integer (.ofInt n) else float (.nearest n.toNat)
  | .float x _ => float x
  | .string s => string s

/-- The value that a JSON document is read as. -/
def Value.ofJson (json : Json) : Value := json.map Scalar.ofJson

/-! ## Text -/

/-- The compact JSON text of a value. -/
def Value.text (v : Value) : String := v.toJson.text

end PropertyPath
