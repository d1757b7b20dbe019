/-!
# Escapes in path text

A backslash directly before one of `.`, `,`, `|`, `&`, `[` or `]` makes that character part of a
name. Before any other character, and before another backslash, a backslash stands for itself.

Every name can be written: `unescape_escape` reads back what `escape` has written.
-/

namespace PropertyPath

namespace Path

/-- The characters that end a name and start the next one. -/
def isDelimiter (c : Char) : Bool := c = '.' || c = ',' || c = '|' || c = '&'

/-- The characters that a backslash before them makes part of a name. -/
def isEscapable (c : Char) : Bool := isDelimiter c || c = '[' || c = ']'

/-- Drops the backslash of every escape, reading from left to right. -/
def unescape : List Char → List Char
  | [] => []
  | [c] => [c]
  | c :: d :: rest =>
    if c = '\\' ∧ isEscapable d then d :: unescape rest else c :: unescape (d :: rest)

/-- Puts a backslash before every character that needs one. -/
def escape : List Char → List Char
  | [] => []
  | c :: rest => if isEscapable c then '\\' :: c :: escape rest else c :: escape rest

/-! ## Reading back -/

theorem isEscapable_backslash : isEscapable '\\' = false := by decide

theorem unescape_cons_of_ne {c : Char} (h : c ≠ '\\') (rest : List Char) :
    unescape (c :: rest) = c :: unescape rest := by
  cases rest with
  | nil => rfl
  | cons d rest => rw [unescape, if_neg (by simp [h])]

/-- A backslash is kept unless an escapable character follows. -/
theorem unescape_backslash_cons {d : Char} (h : isEscapable d = false) (rest : List Char) :
    unescape ('\\' :: d :: rest) = '\\' :: unescape (d :: rest) := by
  rw [unescape, if_neg (by simp [h])]

theorem unescape_escaped {d : Char} (h : isEscapable d = true) (rest : List Char) :
    unescape ('\\' :: d :: rest) = d :: unescape rest := by
  rw [unescape, if_pos ⟨rfl, h⟩]

/-- The escaped form of a name that starts with an escapable character starts with a backslash. -/
theorem unescape_backslash_escape (name : List Char) :
    unescape ('\\' :: escape name) = '\\' :: unescape (escape name) := by
  cases name with
  | nil => rfl
  | cons c rest =>
    unfold escape
    split
    · exact unescape_backslash_cons isEscapable_backslash _
    · next h => exact unescape_backslash_cons (by simpa using h) _

/-- **Every name is read back from its escaped form.** -/
theorem unescape_escape (name : List Char) : unescape (escape name) = name := by
  induction name with
  | nil => rfl
  | cons c rest ih =>
    by_cases h : isEscapable c = true
    · rw [escape, if_pos h, unescape_escaped h, ih]
    · rw [escape, if_neg h]
      by_cases hc : c = '\\'
      · rw [hc, unescape_backslash_escape, ih]
      · rw [unescape_cons_of_ne hc, ih]

end Path

end PropertyPath
