import PropertyPath.Proofs.Grammar

/-!
# Symbols in a row

The scan of a text looks one character back and one ahead. Where neither look crosses the place
between two texts, their symbols are those of the first text and then those of the second one.

Symbols are cut at delimiters and then at markers. A symbol put into them at some place changes the
token at that place only, and in the token only the part at that place. So the path of symbols in a
row is known from the path in front, the token in the middle and the path behind.

* `splitOn_append` — cutting lists in a row
* `scan_append` — scanning texts in a row; `scan_append_delimiter` to `scan_append_escape` say it
  for what may stand between them
* `delimiter_not_mem_scan_iff`, `marker_not_mem_scan_iff` — texts without cuts, by position
* `ofSymbols_append` — the path of symbols in a row
* `segments_append_marker`, `length_segments` — the segments of a token
-/

namespace PropertyPath

namespace Path

/-! ## Cutting lists in a row -/

section SplitOn

variable {α : Type} [DecidableEq α] {a : α} {x y : List α}

theorem exists_splitOn_concat (a : α) (x : List α) :
    ∃ closed last, x.splitOn a = closed ++ [last] := by
  obtain ⟨closed, last, h⟩ :=
    (List.eq_nil_or_concat (x.splitOn a)).resolve_left (List.splitOn_ne_nil a x)
  exact ⟨closed, last, by rw [h, List.concat_eq_append]⟩

theorem exists_splitOn_cons (a : α) (y : List α) : ∃ first rest, y.splitOn a = first :: rest :=
  List.exists_cons_of_ne_nil (List.splitOn_ne_nil a y)

/-- **Of two lists in a row, the last piece of the first and the first of the second are one.** -/
theorem splitOn_append {closed rest : List (List α)} {last first : List α}
    (hx : x.splitOn a = closed ++ [last]) (hy : y.splitOn a = first :: rest) :
    (x ++ y).splitOn a = closed ++ (last ++ first) :: rest := by
  induction x generalizing closed last with
  | nil =>
    have hx' : [] ++ [[]] = closed ++ [last] := hx
    obtain ⟨rfl, hlast⟩ := List.append_inj' hx' rfl
    obtain rfl := List.singleton_injective hlast
    exact hy
  | cons b x ih =>
    obtain ⟨closed', last', hx'⟩ := exists_splitOn_concat a x
    rw [List.splitOn_cons_eq_if_modifyHead, hx'] at hx
    rw [List.cons_append, List.splitOn_cons_eq_if_modifyHead, ih hx']
    split at hx
    · next hb =>
      rw [← List.cons_append] at hx
      obtain ⟨rfl, hlast⟩ := List.append_inj' hx rfl
      obtain rfl := List.singleton_injective hlast
      rw [if_pos hb, List.cons_append]
    · next hb =>
      rw [if_neg hb]
      -- the character is put in front of the last piece or of an earlier one
      cases closed' with
      | nil =>
        have hx' : [] ++ [b :: last'] = closed ++ [last] := hx
        obtain ⟨rfl, hlast⟩ := List.append_inj' hx' rfl
        obtain rfl := List.singleton_injective hlast
        rfl
      | cons piece closed' =>
        rw [List.cons_append, List.modifyHead_cons, ← List.cons_append] at hx
        obtain ⟨rfl, hlast⟩ := List.append_inj' hx rfl
        obtain rfl := List.singleton_injective hlast
        rfl

theorem splitOn_cons_of_ne {b : α} {first : List α} {rest : List (List α)} (h : b ≠ a)
    (hy : y.splitOn a = first :: rest) : (b :: y).splitOn a = (b :: first) :: rest := by
  rw [List.splitOn_cons_eq_if_modifyHead, if_neg (by simpa using h), hy, List.modifyHead_cons]

theorem splitOn_append_of_not_mem {closed : List (List α)} {last : List α}
    (hx : x.splitOn a = closed ++ [last]) (hy : a ∉ y) :
    (x ++ y).splitOn a = closed ++ [last ++ y] :=
  splitOn_append hx (List.splitOn_eq_singleton hy)

theorem splitOn_of_not_mem_append {first : List α} {rest : List (List α)} (hx : a ∉ x)
    (hy : y.splitOn a = first :: rest) : (x ++ y).splitOn a = (x ++ first) :: rest := by
  have hx' : x.splitOn a = [] ++ [x] := List.splitOn_eq_singleton hx
  rw [splitOn_append hx' hy, List.nil_append]

end SplitOn

/-! ## Scanning texts in a row -/

/-- No marker and no escape is made of the end of one text and the start of the next. -/
structure Apart (x y : List Char) : Prop where
  notMarker : x.getLast? = some '[' → y.head? ≠ some ']'
  notEscape : x.getLast? = some '\\' → ∀ d ∈ y.head?, isEscapable d = false

theorem Apart.tail {c : Char} {x y : List Char} (h : Apart (c :: x) y) : Apart x y := by
  cases x with
  | nil => exact ⟨by simp, by simp⟩
  | cons d x => exact ⟨h.notMarker, h.notEscape⟩

theorem IsLetter.append {escaped : Bool} {c : Char} {x y : List Char} (h : IsLetter escaped c x)
    (hxy : Apart (c :: x) y) : IsLetter escaped c (x ++ y) where
  notCut p := by
    cases p with
    | delimiter => exact h.notCut .delimiter
    | marker =>
      have hmarker := h.notCut .marker
      rw [Pattern.cutsAt_marker] at hmarker ⊢
      cases x with
      | nil =>
        simp only [List.nil_append, Bool.eq_false_iff, Ne, Bool.and_eq_true, decide_eq_true_eq]
        rintro ⟨⟨rfl, hy⟩, _⟩
        exact hxy.notMarker rfl hy
      | cons d x => exact hmarker
  notEscape := by
    cases x with
    | nil => exact fun hc d hd => hxy.notEscape (by rw [hc]; rfl) d hd
    | cons d x => exact h.notEscape

/-- **Texts that are apart are scanned one after the other.** -/
theorem scan_append (x y : List Char) (h : Apart x y) : ∀ escaped,
    scan escaped (x ++ y) = scan escaped x ++ scan (escapesNext escaped x) y := by
  intro escaped
  induction escaped, x using symbol_induction with
  | nil escaped => rw [scan_nil]; rfl
  | delimiter c rest hc ih =>
    have hback : (c = '\\' : Bool) = false :=
      decide_eq_false (ne_of_isDelimiter hc isDelimiter_backslash)
    rw [List.cons_append, scan_delimiter hc, scan_delimiter hc, ih h.tail, escapesNext_cons, hback]
    rfl
  | marker rest ih =>
    rw [List.cons_append, List.cons_append, scan_marker, scan_marker, ih h.tail.tail]
    rfl
  | escape escaped d rest hd ih =>
    rw [List.cons_append, List.cons_append, scan_escape hd, scan_escape hd, ← List.cons_append,
      ih h.tail]
    rfl
  | letter escaped c rest hletter ih =>
    rw [List.cons_append, scan_letter (hletter.append h), scan_letter hletter, ih h.tail]
    rfl

section Joints

variable {x : List Char} (hx : x.getLast? ≠ some '\\')

include hx

theorem apart_of_ne {y : List Char} (hy : y.head? ≠ some ']') : Apart x y :=
  ⟨fun _ => hy, fun hback => absurd hback hx⟩

/-- Where no backslash stands in front, a text is scanned from its start. -/
theorem scan_append_of_apart {y : List Char} (h : Apart x y) :
    scan false (x ++ y) = scan false x ++ scan false y := by
  rw [scan_append x y h, (escapesNext_false_eq_false_iff x).mpr hx]

theorem scan_append_delimiter {c : Char} (hc : isDelimiter c = true) (rest : List Char) :
    scan false (x ++ c :: rest) = scan false x ++ .delimiter :: scan false rest := by
  have hclose : c ≠ ']' := ne_of_isDelimiter hc (by decide)
  rw [scan_append_of_apart hx (apart_of_ne hx (by simpa using hclose)), scan_delimiter hc]

theorem scan_append_marker (rest : List Char) :
    scan false (x ++ '[' :: ']' :: rest) = scan false x ++ .marker :: scan false rest := by
  rw [scan_append_of_apart hx (apart_of_ne hx (by simp)), scan_marker]

/-- An escape makes the character behind it a letter. -/
theorem scan_append_escape {d : Char} (hd : isEscapable d = true) (rest : List Char) :
    scan false (x ++ '\\' :: d :: rest) = scan false x ++ .letter d :: scan false rest := by
  have hback : d ≠ '\\' := by
    rintro rfl
    rw [isEscapable_backslash] at hd
    cases hd
  have hletter : IsLetter true d rest :=
    ⟨fun _ => Pattern.cutsAt_escaped _, fun h => absurd h hback⟩
  rw [scan_append_of_apart hx (apart_of_ne hx (by simp)), scan_escape hd, scan_letter hletter,
    decide_eq_false hback]

end Joints

/-- A closing bracket that closes no marker is a letter. -/
theorem scan_close (rest : List Char) : scan false (']' :: rest) = .letter ']' :: scan false rest :=
  scan_letter ⟨notCut_of (by decide) (by simp), fun h => by cases h⟩

/-! ## Symbols by position -/

theorem symbolAt_eq_delimiter_iff {text : List Char} {i : Nat} :
    symbolAt text i = some .delimiter ↔ delimiterAt text i = true := by
  unfold symbolAt
  split_ifs <;> simp_all

theorem delimiterAt_eq_false_of_markerAt {text : List Char} {i : Nat} (h : markerAt text i = true) :
    delimiterAt text i = false := by
  have hopen : text[i]? = some '[' := by
    simp only [markerAt, Bool.and_eq_true, decide_eq_true_eq] at h
    exact h.1.1
  rw [delimiterAt, hopen]
  rfl

theorem symbolAt_eq_marker_iff {text : List Char} {i : Nat} :
    symbolAt text i = some .marker ↔ markerAt text i = true := by
  constructor
  · unfold symbolAt
    split_ifs <;> simp_all
  · intro h
    rw [symbolAt, delimiterAt_eq_false_of_markerAt h, if_neg Bool.false_ne_true, if_pos h]

/-- Behind the text there is no symbol. -/
theorem symbolAt_eq_none {text : List Char} {i : Nat} (h : text.length ≤ i) :
    symbolAt text i = none := by
  have hend := List.getElem?_eq_none h
  have hcut : delimiterAt text i = false := by simp [delimiterAt, hend]
  have hmarker : markerAt text i = false := by simp [markerAt, hend]
  rw [symbolAt, hcut, hmarker, hend]
  simp

/-- The symbols of a scan are those at the positions of the text. -/
theorem mem_scan_iff {text : List Char} {s : Symbol} :
    s ∈ scan false text ↔ ∃ i, symbolAt text i = some s := by
  rw [scan_eq_symbols, symbols, List.mem_filterMap]
  constructor
  · rintro ⟨i, _, hi⟩
    exact ⟨i, hi⟩
  · rintro ⟨i, hi⟩
    refine ⟨i, List.mem_range.mpr (Nat.lt_of_not_le fun hle => ?_), hi⟩
    rw [symbolAt_eq_none hle] at hi
    cases hi

theorem delimiter_not_mem_scan_iff (text : List Char) :
    .delimiter ∉ scan false text ↔ ∀ i, delimiterAt text i = false := by
  simp only [mem_scan_iff, symbolAt_eq_delimiter_iff, not_exists, Bool.not_eq_true]

theorem marker_not_mem_scan_iff (text : List Char) :
    .marker ∉ scan false text ↔ ∀ i, markerAt text i = false := by
  simp only [mem_scan_iff, symbolAt_eq_marker_iff, not_exists, Bool.not_eq_true]

/-! ## The path of symbols in a row -/

/-- The root, which a marker in front brings along. -/
def rootOf (symbols : List Symbol) : Path :=
  if symbols.head? = some .marker then [.root] else []

/-- What a token without a marker is when these tokens follow it: a literal only at the end. -/
def kindBefore : List (List Symbol) → SegmentKind
  | [] => .literal
  | _ :: _ => .object

/-- The segments of tokens that end a text. -/
def ofTokens : List (List Symbol) → Path
  | [] => []
  | token :: rest => Symbol.segments (kindBefore rest) token ++ ofTokens rest

theorem ofTokens_append (front : List (List Symbol)) {rest : List (List Symbol)} (h : rest ≠ []) :
    ofTokens (front ++ rest) = front.flatMap (Symbol.segments .object) ++ ofTokens rest := by
  induction front with
  | nil => rfl
  | cons token front ih =>
    obtain ⟨next, more, hnext⟩ :=
      List.exists_cons_of_ne_nil (List.append_ne_nil_of_right_ne_nil front h)
    rw [List.cons_append, ofTokens, ih, List.flatMap_cons, List.append_assoc, hnext, kindBefore]

/-- The path of symbols is that of their tokens, behind the root if there is one. -/
theorem ofSymbols_eq (symbols : List Symbol) :
    ofSymbols symbols = rootOf symbols ++ ofTokens (symbols.splitOn .delimiter) := by
  obtain ⟨closed, last, h⟩ := exists_splitOn_concat Symbol.delimiter symbols
  have hlast : ofTokens [last] = Symbol.segments .literal last := List.append_nil _
  rw [ofSymbols, h, List.dropLast_concat, List.getLastD_concat, ofTokens_append closed (by simp),
    hlast, List.append_assoc]
  rfl

/-- **The path of symbols in a row.** Only the token that reaches from the first symbols into the
second depends on both. -/
theorem ofSymbols_append {x y : List Symbol} {closed rest : List (List Symbol)}
    {last first : List Symbol} (hx : x.splitOn .delimiter = closed ++ [last])
    (hy : y.splitOn .delimiter = first :: rest) :
    ofSymbols (x ++ y) = rootOf (x ++ y) ++ (closed.flatMap (Symbol.segments .object)
      ++ (Symbol.segments (kindBefore rest) (last ++ first) ++ ofTokens rest)) := by
  rw [ofSymbols_eq, splitOn_append hx hy, ofTokens_append closed (by simp), ofTokens]

/-- A delimiter between them cuts that token in two. -/
theorem ofSymbols_append_delimiter {x y : List Symbol} {closed rest : List (List Symbol)}
    {last first : List Symbol} (hx : x.splitOn .delimiter = closed ++ [last])
    (hy : y.splitOn .delimiter = first :: rest) :
    ofSymbols (x ++ .delimiter :: y)
      = rootOf (x ++ .delimiter :: y) ++ (closed.flatMap (Symbol.segments .object)
        ++ ((Symbol.segments .object last ++ Symbol.segments (kindBefore rest) first)
          ++ ofTokens rest)) := by
  rw [ofSymbols_eq, List.splitOn_append_cons_self, hx, hy, ofTokens_append _ (by simp), ofTokens,
    List.flatMap_append, List.flatMap_singleton, List.append_assoc, List.append_assoc]

/-! ## The segments of a token -/

namespace Symbol

/-- The segment of a part that a marker follows. -/
def closedPart (part : List Symbol) : Segment := .of (spell part) .array

theorem segments_of_splitOn {token last : List Symbol} {closed : List (List Symbol)}
    (h : token.splitOn .marker = closed ++ [last]) (hne : closed ≠ []) (kind : SegmentKind) :
    segments kind token = closed.map closedPart := by
  rw [segments, h]
  split
  · next part heq =>
    have heq' : closed ++ [last] = [] ++ [part] := heq
    exact absurd (List.append_inj' heq' rfl).1 hne
  · rw [List.dropLast_concat]
    rfl

/-- A marker closes all parts in front of it, and all but the last part behind it are closed by
others. -/
theorem segments_append_marker (kind : SegmentKind) (x y : List Symbol) :
    segments kind (x ++ .marker :: y)
      = (x.splitOn .marker ++ (y.splitOn .marker).dropLast).map closedPart := by
  obtain ⟨closed, last, hy⟩ := exists_splitOn_concat Symbol.marker y
  have hsplit : (x ++ .marker :: y).splitOn .marker = x.splitOn .marker ++ closed ++ [last] := by
    rw [List.splitOn_append_cons_self, hy, List.append_assoc]
  rw [segments_of_splitOn hsplit (by simp [List.splitOn_ne_nil]), hy, List.dropLast_concat]

/-- A token has a segment for each marker, and has one segment when it has no marker. -/
theorem length_segments (kind : SegmentKind) (token : List Symbol) :
    (segments kind token).length = max 1 ((token.splitOn .marker).length - 1) := by
  obtain ⟨closed, last, h⟩ := exists_splitOn_concat Symbol.marker token
  rw [h, List.length_append, List.length_singleton, Nat.add_sub_cancel]
  cases closed with
  | nil =>
    rw [segments, h]
    rfl
  | cons part closed =>
    rw [segments_of_splitOn h (by simp), List.length_map, List.length_cons]
    omega

end Symbol

end Path

end PropertyPath
