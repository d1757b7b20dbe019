import PropertyPath.Decimal.Layout
import PropertyPath.Json.Basic

/-!
# The compact text of a JSON document

No blanks, object keys in ascending order of code points, and exactly one text for each document.

* strings — only the quote, the backslash and the characters below the blank are escaped, five of
  them by a letter and the others by four hexadecimal digits
* floats — the shortest decimal that reads back, always with a point or an exponent, so that a float
  is never written like an integer
-/

namespace PropertyPath

namespace Json

/-! ## Strings -/

/-- The escape of a character below the blank that has no letter of its own. -/
def controlEscape (c : Char) : List Char :=
  ['\\', 'u', '0', '0', Nat.digitChar (c.toNat / 16), Nat.digitChar (c.toNat % 16)]

/-- A character as it stands inside quotes. -/
def escapeChar (c : Char) : List Char :=
  match c with
  | '"' => ['\\', '"']
  | '\\' => ['\\', '\\']
  | '\x08' => ['\\', 'b']
  | '\x0c' => ['\\', 'f']
  | '\n' => ['\\', 'n']
  | '\r' => ['\\', 'r']
  | '\t' => ['\\', 't']
  | c => if c.toNat < 0x20 then controlEscape c else [c]

/-- A string in quotes. -/
def quoted (s : String) : List Char := '"' :: (s.toList.flatMap escapeChar ++ ['"'])

/-! ## Numbers -/

/-- Floats are written out in places from `0.00001` up to sixteen digits before the point. -/
def floatLayout : Decimal.Layout := ⟨-5, 15⟩

/-- The text of a finite number. -/
def floatChars (x : Binary64) : List Char :=
  (if x.isNegative then ['-'] else []) ++ Decimal.chars floatLayout (Decimal.shortest x)

/-- The text of an integer. -/
def integerChars (n : Int) : List Char :=
  (if n < 0 then ['-'] else []) ++ Nat.toDigits 10 n.natAbs

/-! ## Documents -/

/-- The text of a primitive. -/
def Primitive.chars : Primitive → List Char
  | null => ['n', 'u', 'l', 'l']
  | boolean true => ['t', 'r', 'u', 'e']
  | boolean false => ['f', 'a', 'l', 's', 'e']
  | integer n _ => integerChars n
  | float x _ => floatChars x
  | string s => quoted s

mutual

/-- The text of a document, as characters. -/
def chars : Json → List Char
  | .scalar s => s.chars
  | .array items => '[' :: ([','].intercalate (itemsChars items) ++ [']'])
  | .object fields => '{' :: ([','].intercalate (fieldsChars fields) ++ ['}'])

/-- The texts of the elements of an array. -/
def itemsChars : List Json → List (List Char)
  | [] => []
  | item :: rest => chars item :: itemsChars rest

/-- The texts of the fields of an object. -/
def fieldsChars {bound : Option String} : Bindings Json bound → List (List Char)
  | .nil => []
  | .cons key _ value rest => (quoted key ++ ':' :: chars value) :: fieldsChars rest

end

/-- The text of a document. -/
def text (json : Json) : String := String.ofList (chars json)

end Json

end PropertyPath
