import Mathlib.Data.List.Basic
import PropertyPath.Json.Text

/-!
# Strings in JSON text

A reader of JSON text that looks for strings only needs to know two things at each character:
whether it is in a string, and whether a backslash stands directly before. In the text of a document
all strings are closed in the end, and an apostrophe occurs in strings only.

## Mechanism

`Sealed` says this of what is left to read, from any state of the reader, so that texts in a row are
put together (`Sealed.append`). Outside strings the text of a document has plain characters only:
letters of the three words, digits, and the signs that numbers, arrays and objects are written with.

A backslash takes the meaning of the next character outside a string, too. Such a backslash does not
occur in the text of a document, but with this reading a text does the same from the inside of a
string as from the outside (`feedAll_flip`).

* `sealed_chars` — the text of a document is sealed
-/

namespace PropertyPath

namespace Json

/-! ## Reading -/

/-- Where a reader of JSON text is: in a string or not, and after a backslash or not. -/
structure Reader where
  inString : Bool
  escaped : Bool
  deriving DecidableEq

namespace Reader

/-- Outside of strings. -/
def outside : Reader := ⟨false, false⟩

/-- In a string. -/
def inside : Reader := ⟨true, false⟩

/-- Takes a character. -/
def feed (r : Reader) (c : Char) : Reader :=
  if r.escaped then ⟨r.inString, false⟩
  else if c = '\\' then ⟨r.inString, true⟩
  else if c = '"' then ⟨!r.inString, false⟩
  else r

/-- Takes characters one after another. -/
def feedAll (r : Reader) (cs : List Char) : Reader := cs.foldl feed r

/-- Outside in place of inside, and inside in place of outside. -/
def flip (r : Reader) : Reader := ⟨!r.inString, r.escaped⟩

theorem feedAll_append (r : Reader) (cs more : List Char) :
    r.feedAll (cs ++ more) = (r.feedAll cs).feedAll more := List.foldl_append

theorem feed_of_ne {c : Char} (hbackslash : c ≠ '\\') (hquote : c ≠ '"') (b : Bool) :
    feed ⟨b, false⟩ c = ⟨b, false⟩ := by
  simp [feed, hbackslash, hquote]

/-- A reader that takes the inside for the outside does so to the end. -/
theorem feedAll_flip (r : Reader) (cs : List Char) : r.flip.feedAll cs = (r.feedAll cs).flip := by
  induction cs generalizing r with
  | nil => rfl
  | cons c cs ih =>
    have hfeed : r.flip.feed c = (r.feed c).flip := by
      unfold feed flip
      dsimp only
      split
      · rfl
      · split
        · rfl
        · split <;> rfl
    show (r.flip.feed c).feedAll cs = ((r.feed c).feedAll cs).flip
    rw [hfeed, ih]

end Reader

open Reader

/-! ## Sealed texts -/

/-- Read on from here, every apostrophe is in a string, and the end is outside of strings. -/
def Sealed (r : Reader) : List Char → Prop
  | [] => r = outside
  | c :: cs => (c = '\'' → r.inString = true) ∧ Sealed (r.feed c) cs

theorem Sealed.append {r : Reader} {cs more : List Char} (h : Sealed r cs)
    (hmore : Sealed outside more) : Sealed r (cs ++ more) := by
  induction cs generalizing r with
  | nil =>
    obtain rfl : r = outside := h
    exact hmore
  | cons c cs ih => exact ⟨h.1, ih h.2⟩

/-- The end of a sealed text is outside of strings. -/
theorem Sealed.feedAll_eq {r : Reader} {cs : List Char} (h : Sealed r cs) :
    r.feedAll cs = outside := by
  induction cs generalizing r with
  | nil => exact h
  | cons c cs ih => exact ih h.2

/-- An apostrophe in a sealed text is in a string. -/
theorem Sealed.inString {r : Reader} {before after : List Char}
    (h : Sealed r (before ++ '\'' :: after)) : (r.feedAll before).inString = true := by
  induction before generalizing r with
  | nil => exact h.1 rfl
  | cons c before ih => exact ih h.2

/-! ## Plain characters -/

/-- A character that no reader takes for the beginning or end of anything. -/
def IsPlain (c : Char) : Prop := c ≠ '\\' ∧ c ≠ '"' ∧ c ≠ '\''

instance (c : Char) : Decidable (IsPlain c) := inferInstanceAs (Decidable (_ ∧ _))

theorem isPlain_of_isDigit {c : Char} (h : c.isDigit = true) : IsPlain c := by
  refine ⟨?_, ?_, ?_⟩ <;> (rintro rfl; revert h; decide)

theorem sealed_cons {c : Char} {cs : List Char} (hc : IsPlain c) (h : Sealed outside cs) :
    Sealed outside (c :: cs) := by
  refine ⟨fun heq => absurd heq hc.2.2, ?_⟩
  rw [outside, feed_of_ne hc.1 hc.2.1]
  exact h

theorem sealed_of_plain {cs : List Char} (h : ∀ c ∈ cs, IsPlain c) : Sealed outside cs := by
  induction cs with
  | nil => rfl
  | cons c cs ih =>
    obtain ⟨hc, hcs⟩ := List.forall_mem_cons.mp h
    exact sealed_cons hc (ih hcs)

theorem sealed_word {cs : List Char} (h : (cs.all fun c => decide (IsPlain c)) = true) :
    Sealed outside cs :=
  sealed_of_plain fun c hc => of_decide_eq_true (List.all_eq_true.mp h c hc)

/-! ## Strings -/

/-- In a string every character but the backslash and the quote stands for itself. -/
theorem sealed_inside_cons {c : Char} {cs : List Char} (hbackslash : c ≠ '\\') (hquote : c ≠ '"')
    (h : Sealed inside cs) : Sealed inside (c :: cs) := by
  refine ⟨fun _ => rfl, ?_⟩
  rw [inside, feed_of_ne hbackslash hquote]
  exact h

/-- Any character may stand after a backslash. -/
theorem sealed_inside_escape (c : Char) {cs : List Char} (h : Sealed inside cs) :
    Sealed inside ('\\' :: c :: cs) :=
  ⟨fun _ => rfl, fun _ => rfl, h⟩

theorem digitChar_ne {n : Nat} (h : n < 16) : Nat.digitChar n ≠ '\\' ∧ Nat.digitChar n ≠ '"' := by
  have hall : ∀ m ∈ List.range 16, Nat.digitChar m ≠ '\\' ∧ Nat.digitChar m ≠ '"' := by decide
  exact hall n (List.mem_range.mpr h)

/-- An escaped character leaves the reader in the string. -/
theorem sealed_escapeChar_append (c : Char) {cs : List Char} (h : Sealed inside cs) :
    Sealed inside (escapeChar c ++ cs) := by
  unfold escapeChar
  split
  iterate 7 exact sealed_inside_escape _ h
  next hquote hbackslash _ _ _ _ _ =>
  split
  · next hcontrol =>
    have hhigh := digitChar_ne (show c.toNat / 16 < 16 by omega)
    have hlow := digitChar_ne (show c.toNat % 16 < 16 by omega)
    exact sealed_inside_escape 'u' (sealed_inside_cons (by decide) (by decide)
      (sealed_inside_cons (by decide) (by decide)
        (sealed_inside_cons hhigh.1 hhigh.2 (sealed_inside_cons hlow.1 hlow.2 h))))
  · exact sealed_inside_cons hbackslash hquote h

/-- **A string in quotes is sealed.** -/
theorem sealed_quoted (s : String) : Sealed outside (quoted s) := by
  have hbody : ∀ cs : List Char, Sealed inside (cs.flatMap escapeChar ++ ['"']) := by
    intro cs
    induction cs with
    | nil => exact ⟨fun _ => rfl, rfl⟩
    | cons c cs ih =>
      rw [List.flatMap_cons, List.append_assoc]
      exact sealed_escapeChar_append c ih
  exact ⟨fun h => absurd h (by decide), hbody s.toList⟩

/-! ## Numbers -/

theorem isDigit_of_mem_toDigits {c : Char} {n : Nat} (h : c ∈ Nat.toDigits 10 n) :
    c.isDigit = true :=
  Nat.isDigit_of_mem_toDigits (by decide) (by decide) h

theorem isPlain_of_mem_integerChars {n : Int} {c : Char} (h : c ∈ integerChars n) : IsPlain c := by
  rcases List.mem_append.mp h with hsign | hdigit
  · split at hsign
    · rw [List.mem_singleton.mp hsign]
      decide
    · cases hsign
  · exact isPlain_of_isDigit (isDigit_of_mem_toDigits hdigit)

/-- The digits of a scaled decimal are digits. -/
theorem isDigit_of_mem_ofScaled {coefficient : Nat} {power : Int} {c : Char}
    (h : c ∈ (Decimal.ofScaled coefficient power).digits) : c.isDigit = true := by
  have hmem := (List.dropWhile_sublist _).subset (List.mem_reverse.mp h)
  exact isDigit_of_mem_toDigits (List.mem_reverse.mp hmem)

theorem isDigit_of_mem_shortest {x : Binary64} {c : Char}
    (h : c ∈ (Decimal.shortest x).digits) : c.isDigit = true := by
  unfold Decimal.shortest at h
  split at h
  · rw [List.mem_singleton.mp h]
    decide
  · exact isDigit_of_mem_ofScaled h

theorem isPlain_of_mem_positional {digits : List Char} (h : ∀ c ∈ digits, IsPlain c)
    {exponent : Int} {c : Char} (hc : c ∈ Decimal.positional digits exponent) : IsPlain c := by
  have hzeros : ∀ n, ∀ c ∈ List.replicate n '0', IsPlain c := by
    intro n c hc
    rw [List.eq_of_mem_replicate hc]
    decide
  unfold Decimal.positional at hc
  split at hc
  · rcases List.mem_cons.mp hc with rfl | hc
    · decide
    · rcases List.mem_cons.mp hc with rfl | hc
      · decide
      · exact (List.mem_append.mp hc).elim (hzeros _ c) (h c)
  · rcases List.mem_append.mp hc with hc | hc
    · exact (List.mem_append.mp (List.mem_of_mem_take hc)).elim (h c) (hzeros _ c)
    · rcases List.mem_cons.mp hc with rfl | hc
      · decide
      · split at hc
        · rw [List.mem_singleton.mp hc]
          decide
        · exact h c (List.mem_of_mem_drop hc)

theorem isPlain_of_mem_scientific {digits : List Char} (h : ∀ c ∈ digits, IsPlain c)
    {exponent : Int} {c : Char} (hc : c ∈ Decimal.scientific digits exponent) : IsPlain c := by
  unfold Decimal.scientific at hc
  rcases List.mem_append.mp hc with hc | hc
  · rcases List.mem_append.mp hc with hc | hc
    · exact h c (List.mem_of_mem_take hc)
    · split at hc
      · cases hc
      · rcases List.mem_cons.mp hc with rfl | hc
        · decide
        · exact h c (List.mem_of_mem_drop hc)
  · rcases List.mem_cons.mp hc with rfl | hc
    · decide
    · rcases List.mem_cons.mp hc with rfl | hc
      · split <;> decide
      · exact isPlain_of_isDigit (isDigit_of_mem_toDigits hc)

theorem isPlain_of_mem_floatChars {x : Binary64} {c : Char} (h : c ∈ floatChars x) :
    IsPlain c := by
  rcases List.mem_append.mp h with hsign | hdecimal
  · split at hsign
    · rw [List.mem_singleton.mp hsign]
      decide
    · cases hsign
  · have hdigits : ∀ c ∈ (Decimal.shortest x).digits, IsPlain c :=
      fun c hc => isPlain_of_isDigit (isDigit_of_mem_shortest hc)
    unfold Decimal.chars at hdecimal
    split at hdecimal
    · exact isPlain_of_mem_positional hdigits hdecimal
    · exact isPlain_of_mem_scientific hdigits hdecimal

/-! ## Documents -/

theorem sealed_primitive (p : Primitive) : Sealed outside p.chars := by
  cases p with
  | null => exact sealed_word (by decide)
  | boolean b => cases b <;> exact sealed_word (by decide)
  | integer n fits => exact sealed_of_plain fun c => isPlain_of_mem_integerChars
  | float x finite => exact sealed_of_plain fun c => isPlain_of_mem_floatChars
  | string s => exact sealed_quoted s

/-- Sealed texts between plain brackets and with commas between them are sealed. -/
theorem sealed_brackets {opening closing : Char} (hopening : IsPlain opening)
    (hclosing : IsPlain closing) {texts : List (List Char)}
    (h : ∀ text ∈ texts, Sealed outside text) :
    Sealed outside (opening :: ([','].intercalate texts ++ [closing])) := by
  have hbetween : Sealed outside ([','].intercalate texts) := by
    induction texts with
    | nil => rfl
    | cons text rest ih =>
      obtain ⟨htext, hrest⟩ := List.forall_mem_cons.mp h
      cases rest with
      | nil => rwa [List.intercalate_singleton]
      | cons next rest =>
        rw [List.intercalate_cons_cons, List.append_assoc]
        exact htext.append (sealed_cons (by decide) (ih hrest))
  exact sealed_cons hopening (hbetween.append (sealed_cons hclosing rfl))

mutual

/-- **The text of a document is sealed.** -/
theorem sealed_chars : (json : Json) → Sealed outside (chars json)
  | .scalar p => sealed_primitive p
  | .array items => sealed_brackets (by decide) (by decide) (sealed_itemsChars items)
  | .object fields => sealed_brackets (by decide) (by decide) (sealed_fieldsChars fields)

theorem sealed_itemsChars : (items : List Json) → ∀ text ∈ itemsChars items, Sealed outside text
  | [], text, h => absurd h List.not_mem_nil
  | item :: rest, text, h => by
    rcases List.mem_cons.mp h with rfl | h
    · exact sealed_chars item
    · exact sealed_itemsChars rest text h

theorem sealed_fieldsChars {bound : Option String} : (fields : Bindings Json bound) →
    ∀ text ∈ fieldsChars fields, Sealed outside text
  | .nil, text, h => absurd h List.not_mem_nil
  | .cons key above value rest, text, h => by
    rcases List.mem_cons.mp h with rfl | h
    · exact (sealed_quoted key).append (sealed_cons (by decide) (sealed_chars value))
    · exact sealed_fieldsChars rest text h

end

end Json

end PropertyPath
