import PropertyPath.Path.Parse
import PropertyPath.Resolve.Basic

/-!
# Looking up a path text

A path text is parsed and resolved in one go, on a value or on a JSON document. A JSON document is
read as a value first, and what is found is written as JSON again; a failure is told about the value
that was read.
-/

namespace PropertyPath

/-- Looks up a path text in a value. -/
def Value.query (v : Value) (text : String) : Attempt Scalar Value := v.resolve (Path.parse text)

/-- Looks up a path text in a JSON document. -/
def Json.query (json : Json) (text : String) : Attempt Scalar Json :=
  (Value.query (Value.ofJson json) text).map Value.toJson

end PropertyPath
