import PropertyPath.Path.Escape

/-!
# Cutting path text

Path text is cut twice. Delimiters cut it into tokens, and markers `[]` cut a token into parts. Both
are patterns, and one function cuts at either of them: at every match, unless a backslash stands
directly before it, whatever stands before that backslash. The character before is all that a cut
depends on besides the match, so the function carries one flag.

What the cuts leave behind are the closed pieces, each of which a cut follows, and the open piece
after the last cut. There is always an open piece, if only an empty one.

* `Pattern.cut` — the pieces of a text
* `toList_cut`, `toList_keep` — what one step of cutting does to the list of pieces
-/

namespace PropertyPath

namespace Path

/-! ## Patterns -/

/-- What texts are cut at. -/
inductive Pattern where
  | delimiter
  | marker

namespace Pattern

/-- How many characters a match has. -/
def width : Pattern → Nat
  | delimiter => 1
  | marker => 2

/-- A text is a match. -/
def isMatch : Pattern → List Char → Bool
  | delimiter, [c] => isDelimiter c
  | marker, [c, d] => c = '[' && d = ']'
  | _, _ => false

end Pattern

/-! ## Pieces -/

/-- The pieces of a text: those that a cut follows, and the one after the last cut. -/
structure Pieces where
  closed : List (List Char)
  last : List Char
  deriving DecidableEq

namespace Pieces

/-- Puts a character in front of the first piece. -/
def keep (c : Char) : Pieces → Pieces
  | ⟨[], last⟩ => ⟨[], c :: last⟩
  | ⟨piece :: closed, last⟩ => ⟨(c :: piece) :: closed, last⟩

/-- Puts a cut in front of the first piece. -/
def cut (p : Pieces) : Pieces := ⟨[] :: p.closed, p.last⟩

/-- All pieces in order. -/
def toList (p : Pieces) : List (List Char) := p.closed ++ [p.last]

/-- The piece at the start of the text. -/
def first (p : Pieces) : List Char := p.closed.headD p.last

@[simp] theorem toList_cut (p : Pieces) : p.cut.toList = [] :: p.toList := rfl

/-- A kept character lengthens the first piece and leaves the others. -/
theorem toList_keep (c : Char) (p : Pieces) :
    (p.keep c).toList = (c :: p.first) :: p.toList.tail := by
  rcases p with ⟨_ | ⟨piece, closed⟩, last⟩ <;> rfl

theorem toList_eq_first_cons (p : Pieces) : p.toList = p.first :: p.toList.tail := by
  rcases p with ⟨_ | ⟨piece, closed⟩, last⟩ <;> rfl

end Pieces

/-! ## Cutting -/

namespace Pattern

/-- Cuts what is left of a text. So many of the characters in front belong to the match of the last
cut, and the flag says that the character before is a backslash. -/
def cutBehind (p : Pattern) : (matched : Nat) → (escaped : Bool) → List Char → Pieces
  | _, _, [] => ⟨[], []⟩
  | matched + 1, _, _ :: rest => p.cutBehind matched false rest
  | 0, escaped, c :: rest =>
    if p.isMatch ((c :: rest).take p.width) ∧ !escaped then
      (p.cutBehind (p.width - 1) false rest).cut
    else (p.cutBehind 0 (c = '\\') rest).keep c

/-- Cuts a text at the matches of a pattern. The flag says that the character before is a
backslash. -/
def cut (p : Pattern) (escaped : Bool) (text : List Char) : Pieces := p.cutBehind 0 escaped text

end Pattern

/-- The tokens of a path. -/
def tokens (text : List Char) : Pieces := Pattern.delimiter.cut false text

/-- The parts of a token. -/
def parts (token : List Char) : Pieces := Pattern.marker.cut false token

end Path

end PropertyPath
