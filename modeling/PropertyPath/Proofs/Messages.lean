import PropertyPath.Proofs.JsonText
import PropertyPath.Resolve.Error

/-!
# Error messages are unambiguous

The message of a missing field has the name of the field as it is, between apostrophes, and the text
of the value after it. Nothing in the name is escaped, so it may look like the rest of the message.
Still there is one way only to read a message.

## Mechanism

Suppose that a message can be read with two names, one longer than the other. Then the separator and
the shorter of the two texts stand at the end of the longer text. The apostrophe of the separator is
in a string of the longer text. The rest of the separator has no quote, so the shorter text begins
in the string. But a whole text ends where it begins, in a string or outside of strings, and the
longer text does not end in a string.

* `separator_unique` — the text after the separator is found in one way only
* `message_eq_iff` — when two messages are the same
-/

namespace PropertyPath

/-! ## Names of shapes and types -/

/-- What stands before the first of some character is read off in one way only. -/
theorem append_cons_inj {α : Type} {c : α} {a b x y : List α} (ha : c ∉ a) (hb : c ∉ b)
    (h : a ++ c :: x = b ++ c :: y) : a = b ∧ x = y := by
  induction a generalizing b with
  | nil =>
    cases b with
    | nil => exact ⟨rfl, (List.cons.inj h).2⟩
    | cons d b => exact absurd ((List.cons.inj h).1 ▸ List.mem_cons_self) hb
  | cons d a ih =>
    cases b with
    | nil => exact absurd ((List.cons.inj h).1 ▸ List.mem_cons_self) ha
    | cons e b =>
      obtain ⟨rfl, htail⟩ := List.cons.inj h
      obtain ⟨rfl, hrest⟩ := ih (fun hc => ha (List.mem_cons_of_mem _ hc))
        (fun hc => hb (List.mem_cons_of_mem _ hc)) htail
      exact ⟨rfl, hrest⟩

theorem Shape.comma_not_mem_name (shape : Shape) : ',' ∉ shape.name.toList := by
  cases shape <;> decide

theorem Value.blank_not_mem_typeName (v : Value) : ' ' ∉ (Value.typeName v).toList := by
  cases v with
  | scalar s => cases s <;> (dsimp only [Value.typeName, Scalar.typeName]; decide)
  | array _ | object _ => dsimp only [Value.typeName]; decide

theorem Shape.name_injective {shape other : Shape} (h : shape.name = other.name) :
    shape = other := by
  cases shape <;> cases other <;> first | rfl | exact absurd h (by decide)

namespace ResolveError

open Json Json.Reader

/-! ## Where a name ends -/

/-- What stands in the message between the name of a missing field and the text of the value,
after the apostrophe. -/
def separator : List Char := [',', ' ', 'g', 'o', 't', ':', ' ']

/-- **The text of a document does not end in an apostrophe, a separator and another text.** -/
theorem chars_ne_separator (longer shorter : Json) (before : List Char) :
    chars longer ≠ before ++ '\'' :: (separator ++ chars shorter) := by
  intro h
  have hlonger := sealed_chars longer
  rw [h] at hlonger
  -- the apostrophe is in a string, and so is what the separator leads to
  have hinside : outside.feedAll (before ++ '\'' :: separator) = inside := by
    have hin := hlonger.inString
    rw [feedAll_append]
    generalize outside.feedAll before = r at hin ⊢
    obtain ⟨inString, escaped⟩ := r
    obtain rfl : inString = true := hin
    cases escaped <;> rfl
  have hend := hlonger.feedAll_eq
  rw [← List.cons_append, ← List.append_assoc, feedAll_append, hinside] at hend
  -- read from there, the shorter text ends in a string
  have hflip := feedAll_flip outside (chars shorter)
  rw [(sealed_chars shorter).feedAll_eq] at hflip
  rw [show inside = outside.flip from rfl, hflip] at hend
  cases hend

/-- Nothing stands in front of the first of two readings of one text. -/
theorem eq_nil_of_separator {between : List Char} {json json' : Json}
    (h : '\'' :: (separator ++ chars json) = between ++ '\'' :: (separator ++ chars json')) :
    between = [] := by
  cases between with
  | nil => rfl
  | cons c between =>
    obtain ⟨-, h⟩ := List.cons.inj h
    rcases List.append_eq_append_iff.mp h with ⟨before, -, hchars⟩ | ⟨rest, hseparator, hrest⟩
    · exact absurd hchars (chars_ne_separator json json' before)
    · cases rest with
      | nil => exact absurd hrest.symm (chars_ne_separator json json' [])
      | cons d rest =>
        -- the separator has no apostrophe
        obtain ⟨rfl, -⟩ := List.cons.inj hrest
        have hmem : '\'' ∈ separator := by rw [hseparator]; simp
        exact absurd hmem (by decide)

/-- **What stands before the separator and after it is read off in one way only.** -/
theorem separator_unique {name other : List Char} {json json' : Json}
    (h : name ++ '\'' :: (separator ++ chars json) = other ++ '\'' :: (separator ++ chars json')) :
    name = other ∧ chars json = chars json' := by
  have hname : name = other := by
    rcases List.append_eq_append_iff.mp h with ⟨between, hother, hrest⟩ | ⟨between, hname, hrest⟩
    · rw [hother, eq_nil_of_separator hrest, List.append_nil]
    · rw [hname, eq_nil_of_separator hrest, List.append_nil]
  subst hname
  exact ⟨rfl, List.append_cancel_left (List.cons.inj (List.append_cancel_left h)).2⟩

/-! ## Messages as characters -/

theorem toList_text (v : Value) : (Value.text v).toList = chars (Value.toJson v) := by
  rw [Value.text, text, String.toList_ofList]

theorem message_missingField (field : String) (v : Value) : message (.missingField field v)
    = "Missing field: expected object with field '" ++ field ++ "', got: " ++ Value.text v := rfl

theorem message_shapeMismatch (expected actual : Shape) (v : Value) :
    message (.shapeMismatch expected actual v)
      = "Shape mismatch: expected " ++ expected.name ++ ", got " ++ Value.typeName v
        ++ " with value: " ++ Value.text v := rfl

theorem toList_message_missingField (field : String) (v : Value) :
    (message (.missingField field v)).toList
      = "Missing field: expected object with field '".toList
        ++ (field.toList ++ '\'' :: (separator ++ chars (Value.toJson v))) := by
  have hseparator : "', got: ".toList = '\'' :: separator := rfl
  rw [message_missingField, String.toList_append, String.toList_append, String.toList_append,
    toList_text, hseparator, List.append_assoc, List.append_assoc, List.cons_append]

theorem toList_message_shapeMismatch (expected actual : Shape) (v : Value) :
    (message (.shapeMismatch expected actual v)).toList
      = "Shape mismatch: expected ".toList
        ++ (expected.name.toList ++ ',' :: (" got ".toList
        ++ ((Value.typeName v).toList ++ ' ' :: ("with value: ".toList
        ++ (Value.text v).toList)))) := by
  have hgot : ", got ".toList = ',' :: " got ".toList := rfl
  have hwith : " with value: ".toList = ' ' :: "with value: ".toList := rfl
  simp only [message_shapeMismatch, String.toList_append, hgot, hwith, List.append_assoc,
    List.cons_append]

/-! ## Reading a message -/

/-- **Two messages are the same exactly when they tell the same.** They are of one kind, and name
the same missing field or the same expected shape, which is followed by the same type; and the texts
of the offending values are the same. So no name of a field makes a message look like one about
another field or another value. -/
theorem message_eq_iff (e e' : ResolveError Scalar) : e.message = e'.message ↔
    (∃ field v w, e = .missingField field v ∧ e' = .missingField field w ∧
      Value.text v = Value.text w) ∨
    ∃ expected actual actual' v w, e = .shapeMismatch expected actual v ∧
      e' = .shapeMismatch expected actual' w ∧ Value.typeName v = Value.typeName w ∧
      Value.text v = Value.text w := by
  constructor
  · intro h
    rw [← String.toList_inj] at h
    cases e with
    | missingField field v =>
      cases e' with
      | missingField other w =>
        rw [toList_message_missingField, toList_message_missingField] at h
        obtain ⟨hfield, htext⟩ := separator_unique (List.append_cancel_left h)
        rw [String.toList_inj] at hfield
        rw [← toList_text, ← toList_text, String.toList_inj] at htext
        exact .inl ⟨field, v, w, rfl, by rw [hfield], htext⟩
      | shapeMismatch expected actual w =>
        rw [toList_message_missingField, toList_message_shapeMismatch] at h
        cases (List.cons.inj h).1
    | shapeMismatch expected actual v =>
      cases e' with
      | missingField other w =>
        rw [toList_message_missingField, toList_message_shapeMismatch] at h
        cases (List.cons.inj h).1
      | shapeMismatch expected' actual' w =>
        rw [toList_message_shapeMismatch, toList_message_shapeMismatch] at h
        obtain ⟨hname, hrest⟩ := append_cons_inj expected.comma_not_mem_name
          expected'.comma_not_mem_name (List.append_cancel_left h)
        obtain ⟨htype, htext⟩ := append_cons_inj (Value.blank_not_mem_typeName v)
          (Value.blank_not_mem_typeName w) (List.append_cancel_left hrest)
        rw [String.toList_inj] at hname htype
        have hvalue := List.append_cancel_left htext
        rw [String.toList_inj] at hvalue
        exact .inr ⟨expected, actual, actual', v, w, rfl, by rw [Shape.name_injective hname], htype,
          hvalue⟩
  · rintro (⟨field, v, w, rfl, rfl, htext⟩ |
      ⟨expected, actual, actual', v, w, rfl, rfl, htype, htext⟩)
    · rw [message_missingField, message_missingField, htext]
    · rw [message_shapeMismatch, message_shapeMismatch, htype, htext]

end ResolveError

end PropertyPath
