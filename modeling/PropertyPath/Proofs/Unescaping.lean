import PropertyPath.Proofs.Grammar
import PropertyPath.Proofs.Occurrences

/-!
# Reading names out of escaped text

An escape takes two characters, and reading goes on behind both of them. Yet what becomes of a
character depends on that character and the next one only: no escapable character is a backslash, so
the second character of an escape never starts another one. Reading is therefore a choice at each
position of the text, and two texts in a row are read apart unless an escape is made of both.

* `unescape_cons` — reading character by character
* `unescape_eq_kept` — the name is what stands at the positions that are no escape's backslash
* `unescape_append_iff` — when two texts in a row are read apart
* `Pattern.cutsAt_escape` — an escaped name is not cut
* `unescape_positional` — all of this, for every text
-/

namespace PropertyPath

namespace Path

/-! ## One character -/

/-- A text that starts with an escapable character. -/
def startsEscapable (text : List Char) : Bool := text.head?.any isEscapable

theorem ne_backslash_of_isEscapable {c : Char} (h : isEscapable c = true) : c ≠ '\\' := by
  rintro rfl
  rw [isEscapable_backslash] at h
  cases h

/-- **What becomes of a character depends on the next one only.** -/
theorem unescape_cons (c : Char) (rest : List Char) :
    unescape (c :: rest)
      = if c = '\\' ∧ startsEscapable rest then unescape rest else c :: unescape rest := by
  cases rest with
  | nil => simp [unescape, startsEscapable]
  | cons d rest =>
    show _ = if c = '\\' ∧ isEscapable d = true then _ else _
    rw [unescape]
    split
    · next h => rw [unescape_cons_of_ne (ne_backslash_of_isEscapable h.2)]
    · rfl

/-! ## Positions -/

/-- The characters of a text, less the backslashes of escapes. -/
def kept (text : List Char) : List Char :=
  (List.range text.length).filterMap fun i => if escapeAt text i then none else text[i]?

theorem kept_cons (c : Char) (rest : List Char) :
    kept (c :: rest) = if c = '\\' ∧ startsEscapable rest then kept rest else c :: kept rest := by
  have hrest : (List.range rest.length).filterMap ((fun i => if escapeAt (c :: rest) i then none
      else (c :: rest)[i]?) ∘ Nat.succ) = kept rest := rfl
  have hfirst : escapeAt (c :: rest) 0 = decide (c = '\\' ∧ startsEscapable rest = true) := by
    simp [escapeAt, startsEscapable, List.head?_eq_getElem?]
  rw [kept, List.length_cons, List.range_succ_eq_map, List.filterMap_cons, List.filterMap_map,
    hrest, hfirst]
  by_cases h : c = '\\' ∧ startsEscapable rest = true
  · rw [decide_eq_true h, if_pos h]
    rfl
  · rw [decide_eq_false h, if_neg h]
    rfl

/-- **A name is what stands at the positions that are no escape's backslash.** -/
theorem unescape_eq_kept (text : List Char) : unescape text = kept text := by
  induction text with
  | nil => rfl
  | cons c rest ih => rw [unescape_cons, kept_cons, ih]

example : unescape "\\\\\\.\\n".toList = "\\\\.\\n".toList := by decide

theorem getLast?_unescape (text : List Char) :
    (unescape text).getLast? = some '\\' ↔ text.getLast? = some '\\' := by
  rw [← escapesNext_false_eq_true_iff, ← escapesNext_false_eq_true_iff, escapesNext_unescape]

/-! ## Texts in a row -/

/-- Texts in a row are read apart when no escape is made of both. -/
theorem unescape_append {x y : List Char}
    (h : x.getLast? ≠ some '\\' ∨ startsEscapable y = false) :
    unescape (x ++ y) = unescape x ++ unescape y := by
  induction x with
  | nil => rfl
  | cons c x ih =>
    cases x with
    | nil =>
      have hjoint : ¬ (c = '\\' ∧ startsEscapable y = true) := by
        rintro ⟨rfl, hy⟩
        rcases h with h | h
        · exact h rfl
        · rw [hy] at h
          cases h
      rw [List.singleton_append, unescape_cons, if_neg hjoint]
      rfl
    | cons d x =>
      rw [List.cons_append, unescape_cons, unescape_cons c (d :: x), ih (by simpa using h)]
      show (if c = '\\' ∧ startsEscapable (d :: x) then _ else _) = _
      split <;> rfl

/-- **Texts in a row are read apart exactly when no escape is made of both.** -/
theorem unescape_append_iff {x y : List Char} :
    unescape (x ++ y) = unescape x ++ unescape y ↔
      x.getLast? ≠ some '\\' ∨ startsEscapable y = false := by
  refine ⟨fun h => ?_, unescape_append⟩
  by_contra hnot
  rw [not_or, not_not, Bool.not_eq_false] at hnot
  obtain ⟨hx, hy⟩ := hnot
  obtain ⟨front, rfl⟩ := List.getLast?_eq_some_iff.mp hx
  -- the backslash is read with the first text, and not with both
  have hfront : unescape (front ++ ['\\']) = unescape front ++ ['\\'] :=
    unescape_append (.inr rfl)
  have hboth : unescape (front ++ '\\' :: y) = unescape front ++ unescape y := by
    rw [unescape_append (.inr rfl), unescape_cons, if_pos ⟨rfl, hy⟩]
  rw [List.append_assoc, List.singleton_append, hfront, hboth, List.append_assoc,
    List.append_cancel_left_eq, List.singleton_append] at h
  exact List.cons_ne_self _ _ h.symm

/-! ## Escaped names -/

namespace Pattern

/-- **An escaped name is not cut.** -/
theorem cutsAt_escape {p : Pattern} (name : List Char) : ∀ escaped i,
    p.cutsAt escaped (escape name) i = false := by
  induction name with
  | nil => exact cutsAt_nil
  | cons c rest ih =>
    intro escaped i
    unfold escape
    split
    · -- neither at the backslash nor at the character behind it
      cases i with
      | zero => exact cutsAt_of_not_isEscapable isEscapable_backslash escaped _
      | succ i =>
        cases i with
        | zero => exact Bool.and_false _
        | succ i => exact ih _ i
    · next h =>
      cases i with
      | zero => exact cutsAt_of_not_isEscapable (Bool.eq_false_iff.mpr h) escaped _
      | succ i => exact ih _ i

end Pattern

/-! ## Reading and escaping -/

/-- **Reading keeps all but the backslashes of escapes, and undoes escaping.** What is read is empty
exactly when the text is, and ends in a backslash exactly when the text does. Texts in a row are
read apart exactly when no escape is made of both. And an escaped name is read back, and holds
neither a delimiter nor a marker that cuts. -/
theorem unescape_positional :
    (∀ text, unescape text = kept text) ∧
    (∀ text, unescape text = [] ↔ text = []) ∧
    (∀ text, (unescape text).getLast? = some '\\' ↔ text.getLast? = some '\\') ∧
    (∀ x y, unescape (x ++ y) = unescape x ++ unescape y ↔
      x.getLast? ≠ some '\\' ∨ startsEscapable y = false) ∧
    ∀ name, unescape (escape name) = name ∧
      ∀ (p : Pattern) (i : Nat), p.cutsAt false (escape name) i = false :=
  ⟨unescape_eq_kept, unescape_eq_nil_iff, getLast?_unescape, fun _ _ => unescape_append_iff,
    fun name => ⟨unescape_escape name, fun _ i => Pattern.cutsAt_escape name false i⟩⟩

end Path

end PropertyPath
