import Mathlib.Logic.Relation
import PropertyPath.Proofs.Symbols

/-!
# Spelling a path in other ways

Many texts stand for the same path. It does not matter which delimiter is used, what stands behind
the last marker of a token, whether a delimiter stands between two markers, or whether a closing
bracket that closes nothing is escaped. It does matter whether a delimiter or a marker is escaped.

## Mechanism

Each way of respelling a text is seen in its symbols at one place, and no symbol elsewhere changes.
Two of them leave the symbols as they are. The others change one token, and are settled by what that
token stands for. An escape that is removed puts a cut into a token. That leaves the token with
fewer segments than the two that it is cut into, unless markers stand on both sides of the cut, and
then the name between them grows shorter.

* `parse_respelled` — a text respelled is parsed alike, and a text laid bare is not
-/

namespace PropertyPath

namespace Path

/-! ## Respelled texts -/

/-- What may stand behind the last marker of a token. It cuts nothing itself, and what follows it
ends the token: the text is over, or a delimiter comes that the tail does not escape. -/
structure IsTail (tail after : List Char) : Prop where
  noDelimiter : ∀ i, delimiterAt tail i = false
  noMarker : ∀ i, markerAt tail i = false
  ends : after = [] ∨ (∃ c ∈ after.head?, isDelimiter c = true) ∧ tail.getLast? ≠ some '\\'

/-- One change in the spelling of a text. -/
inductive Respelled : List Char → List Char → Prop where
  /-- A delimiter takes the place of another one. -/
  | delimiter {before after : List Char} {c d : Char}
      (unescaped : before.getLast? ≠ some '\\')
      (old : isDelimiter c = true) (new : isDelimiter d = true) :
      Respelled (before ++ c :: after) (before ++ d :: after)
  /-- A tail takes the place of another one. -/
  | tail {before tail tail' after : List Char} (unescaped : before.getLast? ≠ some '\\')
      (old : IsTail tail after) (new : IsTail tail' after) :
      Respelled (before ++ '[' :: ']' :: (tail ++ after)) (before ++ '[' :: ']' :: (tail' ++ after))
  /-- A delimiter comes behind a marker that another one of the same token follows. -/
  | markers {before middle after : List Char} {c : Char}
      (unescaped : before.getLast? ≠ some '\\') (sameToken : ∀ i, delimiterAt middle i = false)
      (unescaped' : middle.getLast? ≠ some '\\') (new : isDelimiter c = true) :
      Respelled (before ++ '[' :: ']' :: (middle ++ '[' :: ']' :: after))
        (before ++ '[' :: ']' :: c :: (middle ++ '[' :: ']' :: after))
  /-- A closing bracket that stands behind no bracket is escaped. -/
  | bracket {before after : List Char} (unopened : before.getLast? ≠ some '[')
      (unescaped : before.getLast? ≠ some '\\') :
      Respelled (before ++ ']' :: after) (before ++ '\\' :: ']' :: after)

/-- One backslash is removed that kept a delimiter or a marker from cutting. -/
inductive Bared : List Char → List Char → Prop where
  | delimiter {before after : List Char} {c : Char} (unescaped : before.getLast? ≠ some '\\')
      (cut : isDelimiter c = true) : Bared (before ++ '\\' :: c :: after) (before ++ c :: after)
  | marker {before after : List Char} (unescaped : before.getLast? ≠ some '\\') :
      Bared (before ++ '\\' :: '[' :: ']' :: after) (before ++ '[' :: ']' :: after)

/-! ## Tokens that stand for the same -/

namespace Symbol

/-- What stands behind the last marker of a token is dropped. -/
theorem segments_tail {tail : List Symbol} (h : .marker ∉ tail) (kind : SegmentKind)
    (x : List Symbol) :
    segments kind (x ++ .marker :: tail) = (x.splitOn .marker).map closedPart := by
  rw [segments_append_marker, List.splitOn_eq_singleton h, List.dropLast_singleton, List.append_nil]

/-- A token may be cut behind a marker when another one follows. -/
theorem segments_markers (kind kind' : SegmentKind) (x m y : List Symbol) :
    segments kind ((x ++ [.marker]) ++ (m ++ .marker :: y))
      = segments kind' (x ++ [.marker]) ++ segments kind (m ++ .marker :: y) := by
  have hne : y.splitOn Symbol.marker ≠ [] := List.splitOn_ne_nil _ _
  rw [List.append_assoc, List.singleton_append, segments_append_marker, segments_append_marker,
    segments_append_marker, List.splitOn_append_cons_self, List.dropLast_append_of_ne_nil hne,
    List.splitOn_nil, List.dropLast_singleton, List.append_nil, List.map_append]

/-! ## Tokens that stand for something else -/

theorem spell_append_ne (x y : List Symbol) (c : Char) : spell (x ++ .letter c :: y) ≠ spell y := by
  intro h
  have hlen := congrArg List.length (String.ofList_injective h)
  simp [letter?] at hlen
  omega

/-- **A letter is not what a delimiter in its place would be.** -/
theorem segments_letter_ne (kind : SegmentKind) (x y : List Symbol) (c : Char) :
    segments kind (x ++ .letter c :: y) ≠ segments .object x ++ segments kind y := by
  intro h
  obtain ⟨closed, last, hx⟩ := exists_splitOn_concat Symbol.marker x
  obtain ⟨first, rest, hy⟩ := exists_splitOn_cons Symbol.marker y
  have hxy := splitOn_append hx (splitOn_cons_of_ne (b := .letter c) (by simp) hy)
  have hlen := congrArg List.length h
  rw [List.length_append, length_segments, length_segments, length_segments, hx, hy, hxy] at hlen
  simp only [List.length_append, List.length_cons, List.length_nil] at hlen
  -- as many segments on both sides, so there are markers before and behind the letter
  have hclosed : closed ≠ [] := by
    rintro rfl
    rw [List.length_nil] at hlen
    omega
  obtain ⟨rest', last', rfl⟩ : ∃ rest' last', rest = rest' ++ [last'] := by
    rcases List.eq_nil_or_concat rest with rfl | ⟨rest', last', rfl⟩
    · rw [List.length_nil] at hlen
      omega
    · exact ⟨rest', last', List.concat_eq_append⟩
  rw [← List.cons_append] at hy
  rw [← List.cons_append, ← List.append_assoc] at hxy
  rw [segments_of_splitOn hxy (by simp), segments_of_splitOn hx hclosed,
    segments_of_splitOn hy (by simp), ← List.map_append] at h
  have hpart : closedPart (last ++ .letter c :: first) = closedPart first := by
    simpa using h
  exact spell_append_ne last first c (congrArg Segment.name hpart)

section Marker

variable (kind : SegmentKind) (x y : List Symbol) (c d : Char)

/-- A marker takes no segment away from a token. -/
theorem length_segments_letters_le : (segments kind (x ++ .letter c :: .letter d :: y)).length
    ≤ (segments kind (x ++ .marker :: y)).length := by
  obtain ⟨closed, last, hx⟩ := exists_splitOn_concat Symbol.marker x
  obtain ⟨first, rest, hy⟩ := exists_splitOn_cons Symbol.marker y
  have hxy := splitOn_append hx (splitOn_cons_of_ne (b := .letter c) (by simp)
    (splitOn_cons_of_ne (b := .letter d) (by simp) hy))
  rw [length_segments, length_segments, hxy, List.splitOn_append_cons_self, hx, hy]
  simp only [List.length_append, List.length_cons, List.length_nil]
  omega

/-- **Two letters are not what a marker in their place would be.** -/
theorem segments_letters_ne (hkind : kind ≠ .array) :
    segments kind (x ++ .letter c :: .letter d :: y) ≠ segments kind (x ++ .marker :: y) := by
  intro h
  obtain ⟨closed, last, hx⟩ := exists_splitOn_concat Symbol.marker x
  obtain ⟨first, rest, hy⟩ := exists_splitOn_cons Symbol.marker y
  have hxy := splitOn_append hx (splitOn_cons_of_ne (b := .letter c) (by simp)
    (splitOn_cons_of_ne (b := .letter d) (by simp) hy))
  have hlen := congrArg List.length h
  rw [length_segments, length_segments, hxy, List.splitOn_append_cons_self, hx, hy] at hlen
  simp only [List.length_append, List.length_cons, List.length_nil] at hlen
  -- with as many segments on both sides there is no other marker, and the kinds differ
  obtain rfl : closed = [] := List.length_eq_zero_iff.mp (by omega)
  obtain rfl : rest = [] := List.length_eq_zero_iff.mp (by omega)
  rw [segments_append_marker, hx, hy, segments, hxy] at h
  have hpart : Segment.of (spell (last ++ .letter c :: .letter d :: first)) kind
      = closedPart last := List.singleton_injective h
  exact hkind (congrArg Segment.kind hpart)

end Marker

end Symbol

/-! ## Symbols that stand for the same -/

/-- One symbol is put in the place of another without making or breaking a marker in front. -/
theorem rootOf_append_cons (x : List Symbol) {a b : Symbol} (h : a = .marker ↔ b = .marker)
    (y z : List Symbol) : rootOf (x ++ a :: y) = rootOf (x ++ b :: z) := by
  cases x with
  | nil => simp [rootOf, h]
  | cons s x => rfl

theorem ofSymbols_tail {tail tail' : List Symbol} (htail : .delimiter ∉ tail)
    (hmarker : .marker ∉ tail) (htail' : .delimiter ∉ tail') (hmarker' : .marker ∉ tail')
    {y : List Symbol} (hy : y = [] ∨ y.head? = some .delimiter) (x : List Symbol) :
    ofSymbols (x ++ .marker :: (tail ++ y)) = ofSymbols (x ++ .marker :: (tail' ++ y)) := by
  obtain ⟨closed, last, hx⟩ := exists_splitOn_concat Symbol.delimiter x
  obtain ⟨rest, hrest⟩ : ∃ rest, y.splitOn .delimiter = [] :: rest := by
    rcases hy with rfl | hy
    · exact ⟨[], List.splitOn_nil _⟩
    · obtain ⟨y', rfl⟩ := List.head?_eq_some_iff.mp hy
      exact ⟨_, List.splitOn_append_cons_self [] y'⟩
  -- both texts have the same tokens, but for the tail of one of them
  have hpath : ∀ t : List Symbol, .delimiter ∉ t → .marker ∉ t →
      ofSymbols (x ++ .marker :: (t ++ y)) = rootOf (x ++ .marker :: (t ++ y))
        ++ (closed.flatMap (Symbol.segments .object)
          ++ ((last.splitOn .marker).map Symbol.closedPart ++ ofTokens rest)) := by
    intro t ht hmarker
    have hxt := splitOn_append_of_not_mem (y := .marker :: t) hx (by simpa using ht)
    have hassoc : x ++ .marker :: (t ++ y) = (x ++ .marker :: t) ++ y := by simp
    rw [hassoc, ofSymbols_append hxt hrest, List.append_nil, Symbol.segments_tail hmarker]
  rw [hpath tail htail hmarker, hpath tail' htail' hmarker',
    rootOf_append_cons x Iff.rfl (tail ++ y) (tail' ++ y)]

theorem ofSymbols_markers {m : List Symbol} (hm : .delimiter ∉ m) (x y : List Symbol) :
    ofSymbols (x ++ .marker :: (m ++ .marker :: y))
      = ofSymbols (x ++ .marker :: .delimiter :: (m ++ .marker :: y)) := by
  obtain ⟨closed, last, hx⟩ := exists_splitOn_concat Symbol.delimiter x
  obtain ⟨first, rest, hy⟩ := exists_splitOn_cons Symbol.delimiter y
  have hfront := splitOn_append_of_not_mem (y := [.marker]) hx (by simp)
  have hback := splitOn_of_not_mem_append hm
    (splitOn_cons_of_ne (b := Symbol.marker) (by simp) hy)
  have hroot := rootOf_append_cons x (a := .marker) Iff.rfl (m ++ .marker :: y)
    (.delimiter :: (m ++ .marker :: y))
  rw [List.append_cons, List.append_cons x .marker (.delimiter :: _)] at hroot ⊢
  rw [ofSymbols_append hfront hback, ofSymbols_append_delimiter hfront hback, hroot,
    Symbol.segments_markers (kindBefore rest) .object]

/-! ## Symbols that stand for something else -/

theorem ofSymbols_letter_ne (x y : List Symbol) (c : Char) :
    ofSymbols (x ++ .letter c :: y) ≠ ofSymbols (x ++ .delimiter :: y) := by
  intro h
  obtain ⟨closed, last, hx⟩ := exists_splitOn_concat Symbol.delimiter x
  obtain ⟨first, rest, hy⟩ := exists_splitOn_cons Symbol.delimiter y
  rw [ofSymbols_append hx (splitOn_cons_of_ne (b := .letter c) (by simp) hy),
    ofSymbols_append_delimiter hx hy, rootOf_append_cons x (b := .delimiter) (by simp) y y] at h
  have htoken := List.append_cancel_right (List.append_cancel_left (List.append_cancel_left h))
  exact Symbol.segments_letter_ne _ _ _ _ htoken

theorem kindBefore_ne_array (rest : List (List Symbol)) : kindBefore rest ≠ .array := by
  cases rest <;> simp [kindBefore]

theorem ofSymbols_letters_ne (x y : List Symbol) (c d : Char) :
    ofSymbols (x ++ .letter c :: .letter d :: y) ≠ ofSymbols (x ++ .marker :: y) := by
  intro h
  obtain ⟨closed, last, hx⟩ := exists_splitOn_concat Symbol.delimiter x
  obtain ⟨first, rest, hy⟩ := exists_splitOn_cons Symbol.delimiter y
  rw [ofSymbols_append hx (splitOn_cons_of_ne (b := .letter c) (by simp)
      (splitOn_cons_of_ne (b := .letter d) (by simp) hy)),
    ofSymbols_append hx (splitOn_cons_of_ne (b := .marker) (by simp) hy)] at h
  have hkind := kindBefore_ne_array rest
  cases x with
  | nil =>
    -- the marker brings a root along, and takes no segment away
    have hlen := congrArg List.length h
    have hle := Symbol.length_segments_letters_le (kindBefore rest) last first c d
    simp only [rootOf, List.nil_append, List.head?_cons, if_true, List.length_append,
      List.length_singleton, Option.some.injEq, reduceCtorEq, if_false] at hlen
    omega
  | cons s x =>
    have hroot : rootOf (s :: x ++ .letter c :: .letter d :: y) = rootOf (s :: x ++ .marker :: y) :=
      rfl
    rw [hroot] at h
    have htoken := List.append_cancel_right (List.append_cancel_left (List.append_cancel_left h))
    exact Symbol.segments_letters_ne _ _ _ _ _ hkind htoken

/-! ## Respelled and bared texts -/

section Tail

variable {tail after : List Char} (h : IsTail tail after)

include h

theorem IsTail.delimiter_not_mem : .delimiter ∉ scan false tail :=
  (delimiter_not_mem_scan_iff tail).mpr h.noDelimiter

theorem IsTail.marker_not_mem : .marker ∉ scan false tail :=
  (marker_not_mem_scan_iff tail).mpr h.noMarker

/-- A tail and what follows it are scanned on their own. -/
theorem IsTail.scan_append :
    scan false (tail ++ after) = scan false tail ++ scan false after := by
  rcases h.ends with rfl | ⟨⟨c, hafter, hc⟩, htail⟩
  · rw [List.append_nil, scan_nil, List.append_nil]
  · obtain ⟨rest, rfl⟩ := List.head?_eq_some_iff.mp hafter
    rw [scan_append_delimiter htail hc, scan_delimiter hc]

theorem IsTail.scan_after :
    scan false after = [] ∨ (scan false after).head? = some .delimiter := by
  rcases h.ends with rfl | ⟨⟨c, hafter, hc⟩, _⟩
  · exact .inl (scan_nil false)
  · obtain ⟨rest, rfl⟩ := List.head?_eq_some_iff.mp hafter
    exact .inr (by rw [scan_delimiter hc, List.head?_cons])

end Tail

/-- Each way of respelling a text leaves its path as it is. -/
theorem Respelled.ofChars_eq {x y : List Char} (h : Respelled x y) : ofChars x = ofChars y := by
  rw [ofChars_eq_ofSymbols, ofChars_eq_ofSymbols]
  cases h with
  | delimiter unescaped old new =>
    rw [scan_append_delimiter unescaped old, scan_append_delimiter unescaped new]
  | tail unescaped old new =>
    rw [scan_append_marker unescaped, scan_append_marker unescaped, old.scan_append,
      new.scan_append]
    exact ofSymbols_tail old.delimiter_not_mem old.marker_not_mem new.delimiter_not_mem
      new.marker_not_mem old.scan_after _
  | @markers before middle after c unescaped sameToken unescaped' new =>
    have hmiddle : .delimiter ∉ scan false middle :=
      (delimiter_not_mem_scan_iff middle).mpr sameToken
    rw [scan_append_marker unescaped, scan_append_marker unescaped, scan_delimiter new,
      scan_append_marker unescaped']
    exact ofSymbols_markers hmiddle _ _
  | @bracket before after unopened unescaped =>
    have hapart : Apart before (']' :: after) :=
      ⟨fun hopen => absurd hopen unopened, fun hback => absurd hback unescaped⟩
    rw [scan_append_escape unescaped (by decide), scan_append_of_apart unescaped hapart, scan_close]

/-- So does any number of respellings, made or taken back. -/
theorem ofChars_eq_of_eqvGen {x y : List Char} (h : Relation.EqvGen Respelled x y) :
    ofChars x = ofChars y := by
  induction h with
  | rel x y h => exact h.ofChars_eq
  | refl x => rfl
  | symm x y _ ih => exact ih.symm
  | trans x y z _ _ hxy hyz => exact hxy.trans hyz

/-- Laying bare a delimiter or a marker changes the path. -/
theorem Bared.ofChars_ne {x y : List Char} (h : Bared x y) : ofChars x ≠ ofChars y := by
  rw [ofChars_eq_ofSymbols, ofChars_eq_ofSymbols]
  cases h with
  | @delimiter before after c unescaped cut =>
    have hescapable : isEscapable c = true := by
      rw [isEscapable, cut, Bool.true_or, Bool.true_or]
    rw [scan_append_escape unescaped hescapable, scan_append_delimiter unescaped cut]
    exact ofSymbols_letter_ne _ _ _
  | marker unescaped =>
    rw [scan_append_escape unescaped (by decide), scan_close, scan_append_marker unescaped]
    exact ofSymbols_letters_ne _ _ _ _

/-- **Spelling does not matter to a path, and escapes do.** A text is parsed as before when a
delimiter is another one, when another tail stands behind the last marker of a token, when a
delimiter parts two markers of a token, or when a closing bracket that closes nothing is escaped;
and so it is after any number of such changes, made or taken back. It is parsed as another path when
a delimiter or a marker loses the backslash that kept it from cutting, unless another backslash
stands in front of that one. -/
theorem parse_respelled (p q : String) :
    (Relation.EqvGen Respelled p.toList q.toList → parse p = parse q) ∧
    (Bared p.toList q.toList → parse p ≠ parse q) :=
  ⟨ofChars_eq_of_eqvGen, Bared.ofChars_ne⟩

/-- Each change in the spelling once, and both ways of laying bare. -/
theorem parse_respelled_markers :
    (Relation.EqvGen Respelled "a[]b[]x|c]".toList "a[].b[]\\.y.c\\]".toList ∧
      parse "a[]b[]x|c]" = parse "a[].b[]\\.y.c\\]") ∧
    (Bared "a[]\\.b[]".toList "a[].b[]".toList ∧ parse "a[]\\.b[]" ≠ parse "a[].b[]") ∧
    (Bared "\\[]".toList "[]".toList ∧ parse "\\[]" ≠ parse "[]") := by
  have uncut : ∀ text : List Char, .delimiter ∉ scan false text → .marker ∉ scan false text →
      (∀ i, delimiterAt text i = false) ∧ ∀ i, markerAt text i = false := fun text hd hm =>
    ⟨(delimiter_not_mem_scan_iff text).mp hd, (marker_not_mem_scan_iff text).mp hm⟩
  obtain ⟨hb, _⟩ := uncut ['b'] (by decide) (by decide)
  obtain ⟨hx, hx'⟩ := uncut ['x'] (by decide) (by decide)
  obtain ⟨hy, hy'⟩ := uncut ['\\', '.', 'y'] (by decide) (by decide)
  have hmarkers : Respelled (['a'] ++ '[' :: ']' :: (['b'] ++ '[' :: ']' :: "x|c]".toList))
      (['a'] ++ '[' :: ']' :: '.' :: (['b'] ++ '[' :: ']' :: "x|c]".toList)) :=
    .markers (by decide) hb (by decide) (by decide)
  have htail : Respelled ("a[].b".toList ++ '[' :: ']' :: (['x'] ++ "|c]".toList))
      ("a[].b".toList ++ '[' :: ']' :: (['\\', '.', 'y'] ++ "|c]".toList)) :=
    .tail (by decide) ⟨hx, hx', .inr ⟨⟨'|', rfl, by decide⟩, by decide⟩⟩
      ⟨hy, hy', .inr ⟨⟨'|', rfl, by decide⟩, by decide⟩⟩
  have hdelimiter : Respelled ("a[].b[]\\.y".toList ++ '|' :: "c]".toList)
      ("a[].b[]\\.y".toList ++ '.' :: "c]".toList) :=
    .delimiter (by decide) (by decide) (by decide)
  have hbracket : Respelled ("a[].b[]\\.y.c".toList ++ [']'])
      ("a[].b[]\\.y.c".toList ++ ['\\', ']']) :=
    .bracket (by decide) (by decide)
  have hrespelled : Relation.EqvGen Respelled "a[]b[]x|c]".toList "a[].b[]\\.y.c\\]".toList :=
    .trans _ _ _ (.rel _ _ hmarkers) (.trans _ _ _ (.rel _ _ htail)
      (.trans _ _ _ (.rel _ _ hdelimiter) (.rel _ _ hbracket)))
  have hbared : Bared ("a[]".toList ++ '\\' :: '.' :: "b[]".toList)
      ("a[]".toList ++ '.' :: "b[]".toList) := .delimiter (by decide) (by decide)
  have hbared' : Bared ([] ++ ['\\', '[', ']']) ([] ++ ['[', ']']) := .marker (by decide)
  exact ⟨⟨hrespelled, (parse_respelled _ _).1 hrespelled⟩,
    ⟨hbared, (parse_respelled _ _).2 hbared⟩, ⟨hbared', (parse_respelled _ _).2 hbared'⟩⟩

end Path

end PropertyPath
