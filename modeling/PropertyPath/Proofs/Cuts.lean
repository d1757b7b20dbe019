import PropertyPath.Path.Parse

/-!
# Laws of cutting

Cutting depends on what stands before a text only through one flag. `escapesNext` is the flag after
a text, so the two sides of a cut can be cut apart from each other (`Pattern.cut_append_match`).

## Mechanism

The laws hold of either pattern, and little is asked of its matches: no character of a match is a
backslash, the first one is escapable, and no match starts in front of another one and ends in it.
With that a text is gone through cut by cut, and character by character where there is no cut
(`Pattern.induction`), and cutting does one of two things: `Pattern.cut_match` puts a cut in front
of the pieces, and `Pattern.cut_keep` lengthens the first piece.

* `Pattern.guarded_cut` — no piece that a cut follows ends in a backslash
* `Pattern.cut_escape_append` — an escaped name is not cut
* `escapesNext_unescape`, `escapesNext_escape` — a name ends in a backslash as its text does
-/

namespace PropertyPath

namespace Path

/-! ## Pieces around a cut -/

namespace Pieces

/-- The pieces of two texts with a cut between them. -/
def followedBy (P Q : Pieces) : Pieces := ⟨P.toList ++ Q.closed, Q.last⟩

theorem keep_followedBy (c : Char) (P Q : Pieces) :
    (P.followedBy Q).keep c = (P.keep c).followedBy Q := by
  rcases P with ⟨_ | ⟨piece, closed⟩, last⟩ <;> rfl

theorem cut_followedBy (P Q : Pieces) : (P.followedBy Q).cut = P.cut.followedBy Q := rfl

theorem cut_eq_followedBy (Q : Pieces) : Q.cut = followedBy ⟨[], []⟩ Q := rfl

theorem first_keep (c : Char) (P : Pieces) : (P.keep c).first = c :: P.first := by
  rcases P with ⟨_ | ⟨piece, closed⟩, last⟩ <;> rfl

theorem first_cut (P : Pieces) : P.cut.first = [] := rfl

theorem tail_toList_keep (c : Char) (P : Pieces) : (P.keep c).toList.tail = P.toList.tail := by
  rw [toList_keep, List.tail_cons]

end Pieces

/-! ## The flag after a text -/

/-- The character after a text stands directly after a backslash. The flag says it of the text's own
first character. -/
def escapesNext : (escaped : Bool) → List Char → Bool
  | escaped, [] => escaped
  | _, c :: rest => escapesNext (c = '\\') rest

@[simp] theorem escapesNext_nil (escaped : Bool) : escapesNext escaped [] = escaped := rfl

@[simp] theorem escapesNext_cons (escaped : Bool) (c : Char) (rest : List Char) :
    escapesNext escaped (c :: rest) = escapesNext (c = '\\') rest := rfl

theorem escapesNext_append (x y : List Char) : ∀ escaped,
    escapesNext escaped (x ++ y) = escapesNext (escapesNext escaped x) y := by
  induction x with
  | nil => intro escaped; rfl
  | cons c rest ih => intro escaped; exact ih _

/-- **What comes next is escaped exactly when the text ends in a backslash.** -/
theorem escapesNext_false_eq_true_iff (text : List Char) :
    escapesNext false text = true ↔ text.getLast? = some '\\' := by
  rcases List.eq_nil_or_concat text with rfl | ⟨front, c, rfl⟩
  · simp
  · simp [escapesNext_append]

theorem escapesNext_false_eq_false_iff (text : List Char) :
    escapesNext false text = false ↔ text.getLast? ≠ some '\\' := by
  rw [← Bool.not_eq_true, escapesNext_false_eq_true_iff]

/-- A name ends in a backslash as the piece that it is read from does. -/
theorem escapesNext_unescape (piece : List Char) : ∀ escaped,
    escapesNext escaped (unescape piece) = escapesNext escaped piece := by
  induction piece using unescape.induct with
  | case1 => intro escaped; rfl
  | case2 c => intro escaped; rfl
  | case3 c d rest h ih => intro escaped; rw [unescape, if_pos h]; exact ih _
  | case4 c d rest h ih => intro escaped; rw [unescape, if_neg h]; exact ih _

theorem escapesNext_escape (name : List Char) : ∀ escaped,
    escapesNext escaped (escape name) = escapesNext escaped name := by
  induction name with
  | nil => intro escaped; rfl
  | cons c rest ih =>
    intro escaped
    unfold escape
    split
    · exact ih _
    · exact ih _

theorem unescape_eq_nil_iff (piece : List Char) : unescape piece = [] ↔ piece = [] := by
  rcases piece with _ | ⟨c, _ | ⟨d, rest⟩⟩
  · simp [unescape]
  · simp [unescape]
  · rw [unescape]
    split <;> simp

/-! ## Matches -/

theorem isDelimiter_backslash : isDelimiter '\\' = false := by decide

theorem ne_of_isDelimiter {c d : Char} (hc : isDelimiter c = true) (hd : isDelimiter d = false) :
    c ≠ d := by
  rintro rfl
  rw [hc] at hd
  cases hd

namespace Pattern

theorem width_pos (p : Pattern) : 0 < p.width := by
  cases p <;> decide

theorem isMatch_cases {p : Pattern} {w : List Char} (h : p.isMatch w = true) :
    (p = delimiter ∧ ∃ c, isDelimiter c = true ∧ w = [c]) ∨ (p = marker ∧ w = ['[', ']']) := by
  unfold isMatch at h
  split at h
  · next c => exact .inl ⟨rfl, c, h, rfl⟩
  · next c d =>
    simp only [Bool.and_eq_true, decide_eq_true_eq] at h
    exact .inr ⟨rfl, by rw [h.1, h.2]⟩
  · cases h

theorem length_of_isMatch {p : Pattern} {w : List Char} (h : p.isMatch w = true) :
    w.length = p.width := by
  obtain ⟨rfl, c, _, rfl⟩ | ⟨rfl, rfl⟩ := isMatch_cases h
  · rfl
  · rfl

/-- A match ends in no backslash. -/
theorem escapesNext_match {p : Pattern} {w : List Char} (h : p.isMatch w = true) (escaped : Bool) :
    escapesNext escaped w = false := by
  obtain ⟨rfl, c, hc, rfl⟩ | ⟨rfl, rfl⟩ := isMatch_cases h
  · exact decide_eq_false (ne_of_isDelimiter hc isDelimiter_backslash)
  · rfl

/-- The pattern occurs at a position. -/
def occursAt (p : Pattern) (text : List Char) (i : Nat) : Bool :=
  p.isMatch ((text.drop i).take p.width)

/-- The pattern occurs at a position, and no backslash stands directly before. The flag says whether
one stands before the text. -/
def cutsAt (p : Pattern) (escaped : Bool) (text : List Char) (i : Nat) : Bool :=
  p.occursAt text i && !escapesNext escaped (text.take i)

variable {p : Pattern}

/-- What is a match at the start of a text is one when more text follows. -/
theorem occursAt_of_front {front text : List Char} (hfront : front <+: text)
    (h : p.occursAt front 0 = true) : p.occursAt text 0 = true := by
  obtain ⟨rest, rfl⟩ := hfront
  have hlength := length_of_isMatch h
  have hwidth : p.width ≤ front.length := by
    rw [List.drop_zero, List.length_take] at hlength
    omega
  rw [occursAt, List.drop_zero, List.take_append_of_le_length hwidth]
  exact h

/-- No match starts in a text and ends in a match behind it. -/
theorem occursAt_append_match {w : List Char} (h : p.isMatch w = true) (c : Char)
    (piece rest : List Char) :
    p.occursAt (c :: piece ++ (w ++ rest)) 0 = p.occursAt (c :: piece) 0 := by
  obtain ⟨rfl, _, _, rfl⟩ | ⟨rfl, rfl⟩ := isMatch_cases h
  · rfl
  · cases piece with
    | nil => simp [occursAt, width, isMatch]
    | cons d piece => rfl

theorem cutsAt_zero (escaped : Bool) (text : List Char) :
    p.cutsAt escaped text 0 = (p.occursAt text 0 && !escaped) := rfl

theorem cutsAt_nil (escaped : Bool) (i : Nat) : p.cutsAt escaped [] i = false := by
  cases p <;> simp [cutsAt, occursAt, isMatch]

/-! ## Cuts in front -/

theorem cutsAt_delimiter (escaped : Bool) (c : Char) (rest : List Char) :
    delimiter.cutsAt escaped (c :: rest) 0 = (isDelimiter c && !escaped) := rfl

theorem occursAt_marker (c : Char) (rest : List Char) :
    marker.occursAt (c :: rest) 0 = (c = '[' && rest.head? = some ']') := by
  cases rest <;> simp [occursAt, width, isMatch]

theorem cutsAt_marker (escaped : Bool) (c : Char) (rest : List Char) :
    marker.cutsAt escaped (c :: rest) 0 = (c = '[' && rest.head? = some ']' && !escaped) := by
  rw [cutsAt_zero, occursAt_marker]

/-- A backslash keeps the cut away. -/
theorem cutsAt_escaped (text : List Char) : p.cutsAt true text 0 = false := Bool.and_false _

theorem cutsAt_iff_match {escaped : Bool} {text : List Char} : p.cutsAt escaped text 0 = true ↔
    escaped = false ∧ ∃ w, p.isMatch w = true ∧ w <+: text := by
  rw [cutsAt_zero, Bool.and_eq_true, Bool.not_eq_true', and_comm]
  refine and_congr_right fun _ => ⟨fun h => ⟨_, h, List.take_prefix _ text⟩, ?_⟩
  rintro ⟨w, hw, rest, rfl⟩
  rw [occursAt, List.drop_zero, ← length_of_isMatch hw, List.take_left]
  exact hw

theorem cutsAt_marker_iff {escaped : Bool} {text : List Char} :
    marker.cutsAt escaped text 0 = true ↔ escaped = false ∧ ['[', ']'] <+: text := by
  rw [cutsAt_iff_match]
  refine and_congr_right fun _ => ⟨?_, fun h => ⟨_, rfl, h⟩⟩
  rintro ⟨w, hw, h⟩
  obtain ⟨hp, -⟩ | ⟨-, rfl⟩ := isMatch_cases hw
  · cases hp
  · exact h

/-- A match starts with an escapable character. -/
theorem cutsAt_of_not_isEscapable {c : Char} (h : isEscapable c = false) (escaped : Bool)
    (rest : List Char) : p.cutsAt escaped (c :: rest) 0 = false := by
  rw [isEscapable, Bool.or_eq_false_iff, Bool.or_eq_false_iff] at h
  cases p with
  | delimiter => rw [cutsAt_delimiter, h.1.1, Bool.false_and]
  | marker => rw [cutsAt_marker, h.1.2, Bool.false_and, Bool.false_and]

theorem cutsAt_append_match {w : List Char} (h : p.isMatch w = true) (escaped : Bool) (c : Char)
    (piece rest : List Char) :
    p.cutsAt escaped (c :: (piece ++ (w ++ rest))) 0 = p.cutsAt escaped (c :: piece) 0 := by
  rw [cutsAt_zero, cutsAt_zero, ← List.cons_append, occursAt_append_match h]

/-- Text without a cut in front stays so when it is cut short. -/
theorem cutsAt_of_front {front text : List Char} (hfront : front <+: text) {escaped : Bool}
    (h : p.cutsAt escaped text 0 = false) : p.cutsAt escaped front 0 = false := by
  rw [cutsAt_zero, Bool.and_eq_false_imp] at h ⊢
  exact fun hoccurs => h (occursAt_of_front hfront hoccurs)

/-! ## Cutting step by step -/

theorem cut_nil (escaped : Bool) : p.cut escaped [] = ⟨[], []⟩ := by
  rw [cut, cutBehind]

theorem cutBehind_append (w rest : List Char) :
    p.cutBehind w.length false (w ++ rest) = p.cut false rest := by
  induction w with
  | nil => rfl
  | cons c w ih => rw [List.length_cons, List.cons_append, cutBehind, ih]

theorem cut_match {w : List Char} (h : p.isMatch w = true) (rest : List Char) :
    p.cut false (w ++ rest) = (p.cut false rest).cut := by
  have hlength := length_of_isMatch h
  cases w with
  | nil => exact absurd hlength (Nat.ne_of_lt p.width_pos)
  | cons c w =>
    have htake : (c :: (w ++ rest)).take p.width = c :: w := by
      rw [← hlength, ← List.cons_append, List.take_left]
    rw [cut, List.cons_append, cutBehind, htake, if_pos ⟨h, rfl⟩, ← hlength, List.length_cons,
      Nat.add_sub_cancel, cutBehind_append]

theorem cut_delimiter {c : Char} (h : isDelimiter c = true) (rest : List Char) :
    delimiter.cut false (c :: rest) = (delimiter.cut false rest).cut :=
  cut_match (p := delimiter) (w := [c]) h rest

theorem cut_marker (rest : List Char) :
    marker.cut false ('[' :: ']' :: rest) = (marker.cut false rest).cut :=
  cut_match (p := marker) (w := ['[', ']']) rfl rest

theorem cut_keep {escaped : Bool} {c : Char} {rest : List Char}
    (h : p.cutsAt escaped (c :: rest) 0 = false) :
    p.cut escaped (c :: rest) = (p.cut (c = '\\') rest).keep c := by
  rw [cut, cutBehind, if_neg, cut]
  rintro ⟨hmatch, hescaped⟩
  rw [cutsAt_zero, hescaped, Bool.and_true] at h
  exact absurd hmatch (Bool.eq_false_iff.mp h)

/-- Text is gone through cut by cut, and character by character where there is no cut. -/
protected theorem induction (p : Pattern) {motive : Bool → List Char → Prop}
    (nil : ∀ escaped, motive escaped [])
    (cut : ∀ w rest, p.isMatch w = true → motive false rest → motive false (w ++ rest))
    (keep : ∀ escaped c rest, p.cutsAt escaped (c :: rest) 0 = false →
      motive (c = '\\') rest → motive escaped (c :: rest)) (escaped : Bool) (text : List Char) :
    motive escaped text := by
  induction hn : text.length using Nat.strongRecOn generalizing escaped text with
  | ind n ih =>
    subst hn
    cases text with
    | nil => exact nil escaped
    | cons c rest =>
      cases h : p.cutsAt escaped (c :: rest) 0 with
      | false => exact keep escaped c rest h (ih _ (Nat.lt_succ_self _) _ rest rfl)
      | true =>
        obtain ⟨rfl, w, hw, more, htext⟩ := cutsAt_iff_match.mp h
        have hshort : more.length < (c :: rest).length := by
          have hwidth := p.width_pos
          rw [← htext, List.length_append, length_of_isMatch hw]
          omega
        rw [← htext]
        exact cut w more hw (ih _ hshort false more rfl)

/-! ## Both sides of a match -/

/-- **A match that no backslash stands before cuts a text, and each side is cut on its own.** -/
theorem cut_append_match {w : List Char} (hw : p.isMatch w = true) (x y : List Char) :
    ∀ escaped, escapesNext escaped x = false →
      p.cut escaped (x ++ (w ++ y)) = (p.cut escaped x).followedBy (p.cut false y) := by
  intro escaped
  induction escaped, x using p.induction with
  | nil escaped =>
    intro hx
    obtain rfl : escaped = false := hx
    rw [List.nil_append, cut_match hw, cut_nil, Pieces.cut_eq_followedBy]
  | cut w' rest hw' ih =>
    intro hx
    rw [escapesNext_append, escapesNext_match hw'] at hx
    rw [List.append_assoc, cut_match hw', cut_match hw', ih hx, Pieces.cut_followedBy]
  | keep escaped c rest h ih =>
    intro hx
    have hkeep := (cutsAt_append_match hw escaped c rest y).trans h
    rw [List.cons_append, cut_keep hkeep, cut_keep h, ih hx, Pieces.keep_followedBy]

/-! ## The first piece -/

theorem prefix_first_cut (escaped : Bool) (text : List Char) :
    (p.cut escaped text).first <+: text := by
  induction escaped, text using p.induction with
  | nil escaped => rw [cut_nil]; exact List.nil_prefix
  | cut w rest h ih => rw [cut_match h, Pieces.first_cut]; exact List.nil_prefix
  | keep escaped c rest h ih =>
    rw [cut_keep h, Pieces.first_keep]
    exact (List.prefix_cons_inj c).mpr ih

/-- A text without a cut is its own open piece. -/
theorem last_cut_of_closed_eq_nil (escaped : Bool) (text : List Char) :
    (p.cut escaped text).closed = [] → (p.cut escaped text).last = text := by
  induction escaped, text using p.induction with
  | nil escaped => intro _; rw [cut_nil]
  | cut w rest h ih => rw [cut_match h]; intro hclosed; cases hclosed
  | keep escaped c rest h ih =>
    rw [cut_keep h]
    rcases hP : p.cut (c = '\\') rest with ⟨_ | ⟨piece, closed⟩, last⟩
    · intro _
      rw [hP] at ih
      rw [← ih rfl]
      rfl
    · intro hclosed
      cases hclosed

/-- The first closed piece is empty exactly where a match that cuts stands in front. -/
theorem head?_closed_cut (escaped : Bool) (text : List Char) :
    (p.cut escaped text).closed.head? = some [] ↔ p.cutsAt escaped text 0 = true := by
  induction escaped, text using p.induction with
  | nil escaped => rw [cut_nil, cutsAt_nil]; simp
  | cut w rest h ih =>
    rw [cut_match h, cutsAt_iff_match]
    exact ⟨fun _ => ⟨rfl, w, h, rest, rfl⟩, fun _ => rfl⟩
  | keep escaped c rest h ih =>
    rw [cut_keep h, h]
    -- a kept character makes the first piece longer than nothing
    refine ⟨fun hhead => ?_, nofun⟩
    rcases hP : p.cut (c = '\\') rest with ⟨_ | ⟨piece, closed⟩, last⟩
    · rw [hP] at hhead; cases hhead
    · rw [hP] at hhead; cases hhead

end Pattern

/-! ## Pieces that a cut follows -/

/-- No piece that a cut follows ends in a backslash. The flag counts for the first piece. -/
structure Pieces.Guarded (escaped : Bool) (P : Pieces) : Prop where
  first : ∀ piece ∈ P.closed.head?, escapesNext escaped piece = false
  others : ∀ piece ∈ P.closed.tail, escapesNext false piece = false

namespace Pieces

theorem Guarded.nil (escaped : Bool) (last : List Char) : Guarded escaped ⟨[], last⟩ :=
  ⟨by simp, by simp⟩

theorem Guarded.keep {escaped : Bool} {c : Char} {P : Pieces} (h : Guarded (c = '\\') P) :
    Guarded escaped (P.keep c) := by
  rcases P with ⟨_ | ⟨piece, closed⟩, last⟩
  · exact .nil escaped _
  · refine ⟨?_, h.others⟩
    rintro piece' ⟨⟩
    exact h.first piece rfl

theorem Guarded.of_mem {P : Pieces} (h : Guarded false P) {piece : List Char}
    (hmem : piece ∈ P.closed) : escapesNext false piece = false := by
  rcases P with ⟨_ | ⟨first, closed⟩, last⟩
  · cases hmem
  · rcases List.mem_cons.mp hmem with rfl | hmem
    · exact h.first piece rfl
    · exact h.others piece hmem

theorem Guarded.cut {P : Pieces} (h : Guarded false P) : Guarded false P.cut := by
  refine ⟨?_, fun piece hmem => h.of_mem hmem⟩
  rintro piece ⟨⟩
  rfl

end Pieces

namespace Pattern

/-- **A backslash in front of a match keeps the cut away.** -/
theorem guarded_cut {p : Pattern} (escaped : Bool) (text : List Char) :
    Pieces.Guarded escaped (p.cut escaped text) := by
  induction escaped, text using p.induction with
  | nil escaped => rw [cut_nil]; exact .nil escaped []
  | cut w rest h ih => rw [cut_match h]; exact ih.cut
  | keep escaped c rest h ih => rw [cut_keep h]; exact ih.keep

end Pattern

/-! ## Escaped names -/

namespace Pieces

theorem foldr_keep_open (text last : List Char) :
    text.foldr keep ⟨[], last⟩ = ⟨[], text ++ last⟩ := by
  induction text with
  | nil => rfl
  | cons c rest ih =>
    rw [List.foldr_cons, ih]
    rfl

end Pieces

namespace Pattern

variable {p : Pattern}

/-- **An escaped name holds no match that cuts.** The text behind it is cut as it is behind the name
itself. -/
theorem cut_escape_append (name y : List Char) : ∀ escaped,
    p.cut escaped (escape name ++ y)
      = (escape name).foldr Pieces.keep (p.cut (escapesNext escaped name) y) := by
  induction name with
  | nil => intro escaped; rfl
  | cons c rest ih =>
    intro escaped
    unfold escape
    split
    · -- the backslash is kept, and makes the character after it kept as well
      rw [List.cons_append, List.cons_append,
        cut_keep (cutsAt_of_not_isEscapable isEscapable_backslash escaped _)]
      show Pieces.keep '\\' (p.cut true (c :: (escape rest ++ y))) = _
      rw [cut_keep (cutsAt_escaped _), ih]
      rfl
    · next h =>
      have hc : isEscapable c = false := Bool.eq_false_iff.mpr h
      rw [List.cons_append, cut_keep (cutsAt_of_not_isEscapable hc escaped _), ih]
      rfl

/-- An escaped name is one piece. -/
theorem cut_escape (name : List Char) (escaped : Bool) :
    p.cut escaped (escape name) = ⟨[], escape name⟩ := by
  have hname := cut_escape_append (p := p) name [] escaped
  rwa [List.append_nil, cut_nil, Pieces.foldr_keep_open, List.append_nil] at hname

/-- No match that cuts stands in front of an escaped name. -/
theorem cutsAt_escape_append_iff (name y : List Char) :
    p.cutsAt false (escape name ++ y) 0 = true ↔ name = [] ∧ p.cutsAt false y 0 = true := by
  cases name with
  | nil => simp [escape]
  | cons c rest =>
    refine ⟨fun hstart => ?_, fun h => by cases h.1⟩
    unfold escape at hstart
    split at hstart
    · rw [List.cons_append, cutsAt_of_not_isEscapable isEscapable_backslash] at hstart
      cases hstart
    · next h =>
      rw [List.cons_append, cutsAt_of_not_isEscapable (Bool.eq_false_iff.mpr h)] at hstart
      cases hstart

end Pattern

end Path

end PropertyPath
