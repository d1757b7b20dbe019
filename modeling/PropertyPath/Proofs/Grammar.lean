import Mathlib.Data.List.Basic
import PropertyPath.Proofs.Cuts

/-!
# The grammar of path texts

Parsing cuts a text at delimiters, cuts each token again at markers, and reads each part a third
time for its name. Here one scan does all of it. It goes through the text once, from left to right,
and at each character it knows whether the one before is a backslash and which one comes next.

## Mechanism

The scan turns a text into symbols. A delimiter or a marker that cuts is a symbol of its own, a
backslash that only escapes leaves none, and every other character is a letter. The grammar reads
the symbols: what stands between delimiters is a token, what stands between markers is a part, and
the letters of a part are its name.

* `splitOn_scan_delimiter` — the tokens of the symbols are the symbols of the tokens
* `splitOn_scan_marker` — the parts of a token's symbols are the names of its parts
* `scan_eq_symbols` — the scan finds at each position what the characters around it say
* `parse_grammar` — parsing gives what the grammar reads off one scan
-/

namespace PropertyPath

namespace Path

/-! ## Symbols -/

/-- What a path text is made of: cuts between tokens, cuts inside them, and letters of names. -/
inductive Symbol where
  | delimiter
  | marker
  | letter (c : Char)
  deriving DecidableEq

/-- The symbols of a text. The flag says that the character before is a backslash. -/
def scan : (escaped : Bool) → List Char → List Symbol
  | _, [] => []
  | escaped, [c] => if isDelimiter c ∧ !escaped then [.delimiter] else [.letter c]
  | escaped, c :: next :: rest =>
    if isDelimiter c ∧ !escaped then .delimiter :: scan false (next :: rest)
    else if c = '[' ∧ next = ']' ∧ !escaped then .marker :: scan false rest
    else if c = '\\' ∧ isEscapable next then scan true (next :: rest)
    else .letter c :: scan (c = '\\') (next :: rest)

namespace Symbol

/-- The character of a letter. -/
def letter? : Symbol → Option Char
  | letter c => some c
  | delimiter | marker => none

/-- The name that the letters of a part spell. -/
def spell (part : List Symbol) : String := String.ofList (part.filterMap letter?)

/-- The segments of a token. A token without a marker is one segment of the given kind. Otherwise
each part that a marker follows is an array segment, and the last part is dropped. -/
def segments (kind : SegmentKind) (token : List Symbol) : Path :=
  match token.splitOn .marker with
  | [part] => [.of (spell part) kind]
  | parts => parts.dropLast.map fun part => .of (spell part) .array

end Symbol

/-- The path that symbols stand for: the root where a marker stands in front, then the segments of
each token. Only the last token can be a literal. -/
def ofSymbols (symbols : List Symbol) : Path :=
  let tokens := symbols.splitOn .delimiter
  (if symbols.head? = some .marker then [.root] else [])
    ++ tokens.dropLast.flatMap (Symbol.segments .object)
    ++ Symbol.segments .literal (tokens.getLastD [])

/-! ## Reading symbol by symbol -/

/-- A character is a letter of a name: no delimiter, no marker and no escape. -/
structure IsLetter (escaped : Bool) (c : Char) (rest : List Char) : Prop where
  notCut : ∀ p : Pattern, p.cutsAt escaped (c :: rest) 0 = false
  notEscape : c = '\\' → ∀ d ∈ rest.head?, isEscapable d = false

/-- A letter stays a letter when the text after it is cut short. -/
theorem IsLetter.of_prefix {escaped : Bool} {c : Char} {rest front : List Char}
    (h : IsLetter escaped c rest) (hfront : front <+: rest) : IsLetter escaped c front where
  notCut p := Pattern.cutsAt_of_front ((List.prefix_cons_inj c).mpr hfront) (h.notCut p)
  notEscape := by
    intro hc d hd
    cases front with
    | nil => cases hd
    | cons a front =>
      obtain ⟨more, rfl⟩ := hfront
      exact h.notEscape hc d hd

theorem scan_nil (escaped : Bool) : scan escaped [] = [] := by
  rw [scan]

theorem scan_delimiter {c : Char} (h : isDelimiter c = true) (rest : List Char) :
    scan false (c :: rest) = .delimiter :: scan false rest := by
  cases rest with
  | nil => rw [scan_nil, scan, if_pos ⟨h, rfl⟩]
  | cons d rest => rw [scan, if_pos ⟨h, rfl⟩]

theorem scan_marker (rest : List Char) :
    scan false ('[' :: ']' :: rest) = .marker :: scan false rest := by
  rw [scan, if_neg (by decide), if_pos ⟨rfl, rfl, rfl⟩]

theorem scan_escape {d : Char} (h : isEscapable d = true) (escaped : Bool) (rest : List Char) :
    scan escaped ('\\' :: d :: rest) = scan true (d :: rest) := by
  rw [scan, if_neg (by simp [isDelimiter_backslash]), if_neg (by simp), if_pos ⟨rfl, h⟩]

theorem scan_letter {escaped : Bool} {c : Char} {rest : List Char} (h : IsLetter escaped c rest) :
    scan escaped (c :: rest) = .letter c :: scan (c = '\\') rest := by
  have hcut : ¬ (isDelimiter c = true ∧ (!escaped) = true) := by
    rw [← Bool.and_eq_true, ← Pattern.cutsAt_delimiter escaped c rest, h.notCut]
    exact Bool.false_ne_true
  cases rest with
  | nil => rw [scan_nil, scan, if_neg hcut]
  | cons d rest =>
    have hmarker : ¬ (c = '[' ∧ d = ']' ∧ (!escaped) = true) := by
      rintro ⟨rfl, rfl, he⟩
      have hmark := h.notCut .marker
      rw [Pattern.cutsAt_marker, he] at hmark
      cases hmark
    have hescape : ¬ (c = '\\' ∧ isEscapable d = true) := by
      rintro ⟨hc, hd⟩
      rw [h.notEscape hc d rfl] at hd
      cases hd
    rw [scan, if_neg hcut, if_neg hmarker, if_neg hescape]

theorem notCut_of {escaped : Bool} {c : Char} {rest : List Char}
    (hdelimiter : ¬ (isDelimiter c = true ∧ (!escaped) = true))
    (hmarker : ¬ (c = '[' ∧ rest.head? = some ']' ∧ (!escaped) = true)) (p : Pattern) :
    p.cutsAt escaped (c :: rest) 0 = false := by
  cases p with
  | delimiter => rwa [Pattern.cutsAt_delimiter, Bool.eq_false_iff, Ne, Bool.and_eq_true]
  | marker =>
    rw [Pattern.cutsAt_marker, Bool.eq_false_iff, Ne, Bool.and_eq_true, Bool.and_eq_true,
      decide_eq_true_iff, decide_eq_true_iff, and_assoc]
    exact hmarker

/-- Text is read symbol by symbol. -/
theorem symbol_induction {motive : Bool → List Char → Prop} (nil : ∀ escaped, motive escaped [])
    (delimiter : ∀ c rest, isDelimiter c = true → motive false rest → motive false (c :: rest))
    (marker : ∀ rest, motive false rest → motive false ('[' :: ']' :: rest))
    (escape : ∀ escaped d rest, isEscapable d = true → motive true (d :: rest) →
      motive escaped ('\\' :: d :: rest))
    (letter : ∀ escaped c rest, IsLetter escaped c rest → motive (c = '\\') rest →
      motive escaped (c :: rest)) :
    ∀ escaped text, motive escaped text := by
  intro escaped text
  induction escaped, text using scan.induct with
  | case1 escaped => exact nil escaped
  | case2 escaped c h =>
    obtain rfl : escaped = false := by simpa using h.2
    exact delimiter c [] h.1 (nil false)
  | case3 escaped c h =>
    exact letter escaped c [] ⟨notCut_of h (by simp), fun _ _ hd => by cases hd⟩ (nil _)
  | case4 escaped c d rest h ih =>
    obtain rfl : escaped = false := by simpa using h.2
    exact delimiter c _ h.1 ih
  | case5 escaped c d rest hcut h ih =>
    obtain ⟨rfl, rfl, he⟩ := h
    obtain rfl : escaped = false := by simpa using he
    exact marker rest ih
  | case6 escaped c d rest hcut hmarker h ih =>
    obtain ⟨rfl, hd⟩ := h
    exact escape escaped d rest hd ih
  | case7 escaped c d rest hcut hmarker hescape ih =>
    refine letter escaped c (d :: rest) ⟨notCut_of hcut (by simpa using hmarker), ?_⟩ ih
    rintro hc d' ⟨⟩
    exact Bool.eq_false_iff.mpr fun hd => hescape ⟨hc, hd⟩

/-! ## Tokens -/

/-- **The tokens of a text's symbols are the symbols of its tokens.** -/
theorem splitOn_scan_delimiter (escaped : Bool) (text : List Char) :
    (scan escaped text).splitOn .delimiter
      = scan escaped (Pattern.delimiter.cut escaped text).first
        :: (Pattern.delimiter.cut escaped text).toList.tail.map (scan false) := by
  induction escaped, text using symbol_induction with
  | nil escaped => rw [Pattern.cut_nil, scan_nil]; rfl
  | delimiter c rest hc ih =>
    rw [Pattern.cut_delimiter hc, scan_delimiter hc, Pieces.first_cut, Pieces.toList_cut,
      List.tail_cons, Pieces.toList_eq_first_cons, List.map_cons, ← ih, scan_nil,
      List.splitOn_cons_eq_if_modifyHead, if_pos (by decide)]
  | marker rest ih =>
    -- no bracket is a delimiter, so a marker stays in the first token
    have hkeep : Pattern.delimiter.cut false ('[' :: ']' :: rest)
        = ((Pattern.delimiter.cut false rest).keep ']').keep '[' := by
      rw [Pattern.cut_keep rfl, Pattern.cut_keep rfl]
      rfl
    rw [hkeep, Pieces.first_keep, Pieces.first_keep, Pieces.tail_toList_keep,
      Pieces.tail_toList_keep, scan_marker, scan_marker, List.splitOn_cons_eq_if_modifyHead,
      if_neg (by decide), ih, List.modifyHead_cons]
  | escape escaped d rest hd ih =>
    have hkeep : Pattern.delimiter.cut true (d :: rest)
        = (Pattern.delimiter.cut (d = '\\') rest).keep d :=
      Pattern.cut_keep (Pattern.cutsAt_escaped _)
    rw [hkeep, Pieces.first_keep, Pieces.tail_toList_keep] at ih
    rw [Pattern.cut_keep (Pattern.cutsAt_of_not_isEscapable isEscapable_backslash _ _),
      Pieces.first_keep, Pieces.tail_toList_keep]
    show List.splitOn _ _ = scan escaped ('\\' :: (Pattern.delimiter.cut true (d :: rest)).first)
      :: (Pattern.delimiter.cut true (d :: rest)).toList.tail.map (scan false)
    rw [hkeep, Pieces.first_keep, Pieces.tail_toList_keep, scan_escape hd, scan_escape hd, ih]
  | letter escaped c rest h ih =>
    have hfirst := h.of_prefix (Pattern.prefix_first_cut (p := .delimiter) (c = '\\') rest)
    rw [Pattern.cut_keep (h.notCut _), Pieces.first_keep, Pieces.tail_toList_keep, scan_letter h,
      scan_letter hfirst, List.splitOn_cons_eq_if_modifyHead, if_neg (by simp), ih,
      List.modifyHead_cons]

/-- No token holds a delimiter. -/
theorem delimiter_not_mem_of_mem_splitOn {symbols token : List Symbol}
    (h : token ∈ symbols.splitOn .delimiter) : .delimiter ∉ token := by
  induction symbols generalizing token with
  | nil =>
    rw [List.splitOn_nil, List.mem_singleton] at h
    rw [h]
    exact List.not_mem_nil
  | cons a rest ih =>
    rw [List.splitOn_cons_eq_if_modifyHead] at h
    split at h
    · rcases List.mem_cons.mp h with rfl | h
      · exact List.not_mem_nil
      · exact ih h
    · next hne =>
      obtain ⟨first, others, hsplit⟩ :=
        List.exists_cons_of_ne_nil (List.splitOn_ne_nil Symbol.delimiter rest)
      rw [hsplit, List.modifyHead_cons] at h
      rcases List.mem_cons.mp h with rfl | h
      · rw [List.mem_cons]
        rintro (heq | hmem)
        · exact hne (by simp [heq])
        · exact ih (by rw [hsplit]; exact List.mem_cons_self) hmem
      · exact ih (by rw [hsplit]; exact List.mem_cons_of_mem _ h)

/-! ## Parts -/

theorem unescape_letter {escaped : Bool} {c : Char} {rest : List Char}
    (h : IsLetter escaped c rest) : unescape (c :: rest) = c :: unescape rest := by
  by_cases hc : c = '\\'
  · subst hc
    cases rest with
    | nil => rfl
    | cons d rest => exact unescape_backslash_cons (h.notEscape rfl d rfl) rest
  · exact unescape_cons_of_ne hc rest

/-- **The parts of a token's symbols are the names of its parts, letter by letter.** -/
theorem splitOn_scan_marker (escaped : Bool) (token : List Char) :
    .delimiter ∉ scan escaped token → (scan escaped token).splitOn .marker
      = (Pattern.marker.cut escaped token).toList.map fun part => (unescape part).map .letter := by
  induction escaped, token using symbol_induction with
  | nil escaped => intro _; rw [Pattern.cut_nil, scan_nil]; rfl
  | delimiter c rest hc ih =>
    rw [scan_delimiter hc]
    intro hnot
    exact absurd List.mem_cons_self hnot
  | marker rest ih =>
    rw [scan_marker]
    intro hnot
    rw [Pattern.cut_marker, Pieces.toList_cut, List.map_cons, List.splitOn_cons_eq_if_modifyHead,
      if_pos (by decide), ih fun hmem => hnot (List.mem_cons_of_mem _ hmem)]
    rfl
  | escape escaped d rest hd ih =>
    rw [scan_escape hd]
    intro hnot
    have hd' : d ≠ '\\' := by
      rintro rfl
      rw [isEscapable_backslash] at hd
      cases hd
    rw [ih hnot, Pattern.cut_keep (Pattern.cutsAt_of_not_isEscapable isEscapable_backslash _ _)]
    show _ = ((Pattern.marker.cut true (d :: rest)).keep '\\').toList.map _
    -- the part in front loses the backslash when its name is read
    rw [Pattern.cut_keep (Pattern.cutsAt_escaped _), Pieces.toList_keep, Pieces.toList_keep,
      Pieces.tail_toList_keep, Pieces.first_keep, List.map_cons, List.map_cons,
      unescape_escaped hd, unescape_cons_of_ne hd']
  | letter escaped c rest h ih =>
    rw [scan_letter h]
    intro hnot
    have hfirst := h.of_prefix (Pattern.prefix_first_cut (p := .marker) (c = '\\') rest)
    rw [Pattern.cut_keep (h.notCut _), Pieces.toList_keep, List.map_cons, unescape_letter hfirst,
      List.splitOn_cons_eq_if_modifyHead, if_neg (by simp),
      ih fun hmem => hnot (List.mem_cons_of_mem _ hmem), Pieces.toList_eq_first_cons,
      List.map_cons, List.modifyHead_cons, List.map_cons, List.tail_cons]

theorem spell_map_letter (name : List Char) :
    Symbol.spell (name.map .letter) = String.ofList name := by
  simp [Symbol.spell, List.filterMap_map, Function.comp_def, Symbol.letter?]

/-- The grammar gives a token the segments that cutting it gives. -/
theorem segments_scan (kind : SegmentKind) {token : List Char}
    (h : .delimiter ∉ scan false token) :
    Symbol.segments kind (scan false token) = tokenSegments kind token := by
  rw [Symbol.segments, splitOn_scan_marker false token h]
  unfold tokenSegments parts
  rcases hP : Pattern.marker.cut false token with ⟨_ | ⟨piece, closed⟩, last⟩
  · have hlast := Pattern.last_cut_of_closed_eq_nil (p := .marker) false token (by rw [hP])
    rw [hP] at hlast
    obtain rfl : last = token := hlast
    show [Segment.of (Symbol.spell ((unescape last).map .letter)) kind] = _
    rw [spell_map_letter]
    rfl
  · have hlist : (Pieces.mk (piece :: closed) last).toList = (piece :: closed) ++ [last] := rfl
    rw [hlist, List.map_append, List.map_singleton]
    split
    · next part heq =>
      have hlen := congrArg List.length heq
      simp at hlen
    · rw [List.dropLast_concat, List.map_map]
      exact List.map_congr_left fun part _ => by
        rw [Function.comp_apply, spell_map_letter, nameOf]

/-! ## The root -/

/-- A marker stands in front of the first token when one stands in front of the text. -/
theorem marker_prefix_first_iff (text : List Char) :
    ['[', ']'] <+: (tokens text).first ↔ ['[', ']'] <+: text := by
  refine ⟨fun h => h.trans (Pattern.prefix_first_cut false text), ?_⟩
  rintro ⟨rest, rfl⟩
  show ['[', ']'] <+: (Pattern.delimiter.cut false ('[' :: ']' :: rest)).first
  rw [Pattern.cut_keep rfl, Pattern.cut_keep rfl, Pieces.first_keep, Pieces.first_keep]
  exact ⟨_, rfl⟩

/-- The first part of a token is closed and empty exactly where a marker stands in front. -/
theorem head?_closed_parts (token : List Char) :
    (parts token).closed.head? = some [] ↔ ['[', ']'] <+: token := by
  rw [parts, Pattern.head?_closed_cut, Pattern.cutsAt_marker_iff]
  exact and_iff_right rfl

/-- The root is put in front of a text that starts with a marker. -/
theorem leadingRoot_eq (text : List Char) :
    leadingRoot text = if ['[', ']'] <+: text then [.root] else [] := by
  have hhead := (head?_closed_parts (tokens text).first).trans (marker_prefix_first_iff text)
  unfold leadingRoot
  split
  · next rest hclosed =>
    rw [hclosed] at hhead
    rw [if_pos (hhead.mp rfl)]
  · next hclosed =>
    rw [if_neg]
    intro hprefix
    obtain ⟨rest, hrest⟩ := List.head?_eq_some_iff.mp (hhead.mpr hprefix)
    exact hclosed rest hrest

theorem head?_scan (escaped : Bool) (text : List Char) :
    (scan escaped text).head? = some .marker ↔ Pattern.marker.cutsAt escaped text 0 = true := by
  induction escaped, text using symbol_induction with
  | nil escaped => simp [scan_nil, Pattern.cutsAt_nil]
  | delimiter c rest hc ih =>
    have hbracket : c ≠ '[' := ne_of_isDelimiter hc (by decide)
    rw [scan_delimiter hc, Pattern.cutsAt_marker, decide_eq_false hbracket]
    simp
  | marker rest ih => simp [scan_marker, Pattern.cutsAt_marker]
  | escape escaped d rest hd ih =>
    rw [scan_escape hd, ih, Pattern.cutsAt_escaped,
      Pattern.cutsAt_of_not_isEscapable isEscapable_backslash]
  | letter escaped c rest h ih => simp [scan_letter h, h.notCut]

/-! ## Parsing -/

/-- **Parsing a text reads the grammar off its symbols.** -/
theorem ofChars_eq_ofSymbols (text : List Char) : ofChars text = ofSymbols (scan false text) := by
  have htokens : (scan false text).splitOn .delimiter = (tokens text).toList.map (scan false) := by
    rw [splitOn_scan_delimiter, ← List.map_cons, ← Pieces.toList_eq_first_cons, tokens]
  -- a token of the text is one of the symbols too, so it holds no delimiter that cuts
  have hsegments : ∀ kind, ∀ token ∈ (tokens text).toList,
      Symbol.segments kind (scan false token) = tokenSegments kind token := by
    intro kind token hmem
    have hsplit : scan false token ∈ (scan false text).splitOn .delimiter := by
      rw [htokens]
      exact List.mem_map_of_mem hmem
    exact segments_scan kind (delimiter_not_mem_of_mem_splitOn hsplit)
  unfold ofChars ofSymbols
  have hlist : (tokens text).toList = (tokens text).closed ++ [(tokens text).last] := rfl
  have hroot : ((scan false text).head? = some .marker) = (['[', ']'] <+: text) :=
    propext <| (head?_scan false text).trans <|
      Pattern.cutsAt_marker_iff.trans (and_iff_right rfl)
  rw [hlist] at hsegments
  simp only [htokens, leadingRoot_eq, hroot, hlist, List.map_append, List.map_singleton,
    List.dropLast_concat, List.flatMap_map, List.getLastD_concat]
  rw [hsegments .literal _ (List.mem_append_right _ List.mem_cons_self)]
  congr 2
  exact (List.flatMap_congr fun token hmem => hsegments .object token
    (List.mem_append_left _ hmem)).symm

/-! ## Positions -/

/-- The character at a position stands directly after a backslash. -/
def escapedAt (text : List Char) : Nat → Bool
  | 0 => false
  | i + 1 => text[i]? = some '\\'

/-- A delimiter that cuts. -/
def delimiterAt (text : List Char) (i : Nat) : Bool :=
  text[i]?.any isDelimiter && !escapedAt text i

/-- The opening bracket of a marker that cuts. -/
def markerAt (text : List Char) (i : Nat) : Bool :=
  text[i]? = some '[' && text[i + 1]? = some ']' && !escapedAt text i

/-- The closing bracket of a marker that cuts. -/
def markerEndAt (text : List Char) : Nat → Bool
  | 0 => false
  | i + 1 => markerAt text i

/-- A backslash directly before an escapable character. -/
def escapeAt (text : List Char) (i : Nat) : Bool :=
  text[i]? = some '\\' && text[i + 1]?.any isEscapable

/-- The symbol at a position. The end of a marker and a backslash that escapes have none. -/
def symbolAt (text : List Char) (i : Nat) : Option Symbol :=
  if delimiterAt text i then some .delimiter
  else if markerAt text i then some .marker
  else if markerEndAt text i || escapeAt text i then none
  else text[i]?.map .letter

/-- The symbols of a text, position by position. -/
def symbols (text : List Char) : List Symbol := (List.range text.length).filterMap (symbolAt text)

section Split

variable (before : List Char) (c : Char) (rest : List Char)

theorem getElem?_split : (before ++ c :: rest)[before.length]? = some c := by
  simp

theorem getElem?_split_succ : (before ++ c :: rest)[before.length + 1]? = rest.head? := by
  rw [List.append_cons, List.getElem?_append_right (by simp)]
  simp [List.head?_eq_getElem?]

theorem escapedAt_split : escapedAt (before ++ rest) before.length = escapesNext false before := by
  rcases List.eq_nil_or_concat before with rfl | ⟨front, d, rfl⟩
  · rfl
  · simp [escapedAt, escapesNext_append]

theorem delimiterAt_split : delimiterAt (before ++ c :: rest) before.length
    = (isDelimiter c && !escapesNext false before) := by
  rw [delimiterAt, getElem?_split, escapedAt_split, Option.any_some]

theorem markerAt_split : markerAt (before ++ c :: rest) before.length
    = (c = '[' && rest.head? = some ']' && !escapesNext false before) := by
  simp only [markerAt, getElem?_split, getElem?_split_succ, escapedAt_split, Option.some.injEq]

theorem escapeAt_split : escapeAt (before ++ c :: rest) before.length
    = (c = '\\' && rest.head?.any isEscapable) := by
  simp only [escapeAt, getElem?_split, getElem?_split_succ, Option.some.injEq]

theorem markerEndAt_split_succ : markerEndAt (before ++ [c] ++ rest) (before ++ [c]).length
    = (c = '[' && rest.head? = some ']' && !escapesNext false before) := by
  rw [List.append_assoc, List.length_append]
  exact markerAt_split before c rest

theorem escapesNext_concat : escapesNext false (before ++ [c]) = decide (c = '\\') := by
  rw [escapesNext_append]
  rfl

theorem filterMap_symbolAt_cons :
    (List.range' before.length (c :: rest).length).filterMap (symbolAt (before ++ c :: rest))
      = (symbolAt (before ++ c :: rest) before.length).toList
        ++ (List.range' (before ++ [c]).length rest.length).filterMap
          (symbolAt (before ++ [c] ++ rest)) := by
  have htext : before ++ [c] ++ rest = before ++ c :: rest := by simp
  rw [List.length_cons, List.range'_succ, List.filterMap_cons, htext, List.length_append]
  cases symbolAt (before ++ c :: rest) before.length <;> rfl

end Split

namespace IsLetter

variable {escaped : Bool} {c : Char} {rest : List Char}

theorem markerAt_eq_false (h : IsLetter escaped c rest) :
    (c = '[' && rest.head? = some ']' && !escaped) = false := by
  rw [← Pattern.cutsAt_marker]
  exact h.notCut .marker

theorem escapeAt_eq_false (h : IsLetter escaped c rest) :
    (c = '\\' && rest.head?.any isEscapable) = false := by
  refine Bool.eq_false_iff.mpr fun he => ?_
  simp only [Bool.and_eq_true, decide_eq_true_eq, Option.any_eq_true] at he
  obtain ⟨hc, d, hd, hesc⟩ := he
  rw [h.notEscape hc d hd] at hesc
  cases hesc

/-- A letter that does not close a marker is its own symbol. -/
theorem symbolAt_eq (h : IsLetter escaped c rest) {before : List Char}
    (hflag : escapesNext false before = escaped)
    (hend : markerEndAt (before ++ c :: rest) before.length = false) :
    symbolAt (before ++ c :: rest) before.length = some (.letter c) := by
  have hcut : (isDelimiter c && !escaped) = false := h.notCut .delimiter
  rw [symbolAt, delimiterAt_split, markerAt_split, hend, escapeAt_split, hflag, hcut,
    h.markerAt_eq_false, h.escapeAt_eq_false, getElem?_split]
  rfl

end IsLetter

/-- What stands between a position and the end of a text is scanned from that position on, unless
the position is inside a marker. -/
theorem filterMap_symbolAt_eq_scan (escaped : Bool) (rest : List Char) : ∀ before,
    escapesNext false before = escaped →
    markerEndAt (before ++ rest) before.length = false →
      (List.range' before.length rest.length).filterMap (symbolAt (before ++ rest))
        = scan escaped rest := by
  induction escaped, rest using symbol_induction with
  | nil escaped => intro before _ _; rw [scan_nil]; rfl
  | delimiter c rest hc ih =>
    intro before hflag hend
    have hbracket : c ≠ '[' := ne_of_isDelimiter hc (by decide)
    have hback : c ≠ '\\' := ne_of_isDelimiter hc isDelimiter_backslash
    have hsymbol : symbolAt (before ++ c :: rest) before.length = some .delimiter := by
      rw [symbolAt, delimiterAt_split, hc, hflag]
      rfl
    rw [filterMap_symbolAt_cons, hsymbol, scan_delimiter hc, ih (before ++ [c])]
    · rfl
    · rw [escapesNext_concat, decide_eq_false hback]
    · rw [markerEndAt_split_succ]
      simp [hbracket]
  | marker rest ih =>
    intro before hflag hend
    have hopen : symbolAt (before ++ '[' :: ']' :: rest) before.length = some .marker := by
      rw [symbolAt, delimiterAt_split, markerAt_split, hflag]
      rfl
    -- the closing bracket is passed over, and the scan goes on behind it
    have hclose : symbolAt (before ++ ['['] ++ ']' :: rest) (before ++ ['[']).length = none := by
      rw [symbolAt, delimiterAt_split, markerAt_split, markerEndAt_split_succ, hflag]
      rfl
    rw [filterMap_symbolAt_cons, hopen, filterMap_symbolAt_cons, hclose, scan_marker,
      ih (before ++ ['['] ++ [']'])]
    · rfl
    · rw [escapesNext_concat]
      rfl
    · rw [markerEndAt_split_succ]
      rfl
  | escape escaped d rest hd ih =>
    intro before hflag hend
    have hsymbol : symbolAt (before ++ '\\' :: d :: rest) before.length = none := by
      rw [symbolAt, delimiterAt_split, markerAt_split, escapeAt_split, List.head?_cons,
        Option.any_some, hd]
      simp [isDelimiter_backslash]
    rw [filterMap_symbolAt_cons, hsymbol, scan_escape hd, ih (before ++ ['\\'])]
    · rfl
    · rw [escapesNext_concat]
      rfl
    · rw [markerEndAt_split_succ]
      rfl
  | letter escaped c rest h ih =>
    intro before hflag hend
    rw [filterMap_symbolAt_cons, h.symbolAt_eq hflag hend, scan_letter h, ih (before ++ [c])]
    · rfl
    · exact escapesNext_concat before c
    · rw [markerEndAt_split_succ, hflag, h.markerAt_eq_false]

/-- **The scan finds at each position what the characters around it say.** -/
theorem scan_eq_symbols (text : List Char) : scan false text = symbols text := by
  rw [symbols, List.range_eq_range']
  exact (filterMap_symbolAt_eq_scan false text [] rfl rfl).symm

/-! ## The parsed path -/

theorem attrs_root_ne_nil : Segment.root.attrs ≠ .nil := by
  decide

theorem attrs_of_mem_tokenSegments {kind : SegmentKind} {token : List Char} {s : Segment}
    (h : s ∈ tokenSegments kind token) : s.attrs = .nil := by
  unfold tokenSegments at h
  split at h
  · rw [List.mem_singleton.mp h, Segment.attrs_of]
  · obtain ⟨part, _, rfl⟩ := List.mem_map.mp h
    rw [Segment.attrs_of]

/-- The segments of a text, without the root. -/
def body (text : List Char) : Path :=
  (tokens text).closed.flatMap (tokenSegments .object)
    ++ tokenSegments .literal (tokens text).last

/-- The root stands in front of all other segments. -/
theorem ofChars_eq_root_append (text : List Char) :
    ofChars text = (if ['[', ']'] <+: text then [.root] else []) ++ body text := by
  rw [ofChars, leadingRoot_eq, List.append_assoc, body]

theorem attrs_of_mem_body {text : List Char} {s : Segment} (h : s ∈ body text) :
    s.attrs = .nil := by
  rcases List.mem_append.mp h with h | h
  · obtain ⟨token, _, h⟩ := List.mem_flatMap.mp h
    exact attrs_of_mem_tokenSegments h
  · exact attrs_of_mem_tokenSegments h

/-- **A text is parsed by the grammar.** The path is what the grammar reads off one scan of the
text, and that scan finds at each position the symbol that the characters directly around it make.
The root is the first segment exactly when the text starts with a marker, and no other segment has
attributes. -/
theorem parse_grammar (text : String) :
    parse text = ofSymbols (scan false text.toList) ∧
    scan false text.toList = symbols text.toList ∧
    ((parse text).head? = some .root ↔ ['[', ']'] <+: text.toList) ∧
    ∀ i s, (parse text)[i]? = some s → (i = 0 ∧ s = .root) ∨ s.attrs = .nil := by
  refine ⟨ofChars_eq_ofSymbols text.toList, scan_eq_symbols text.toList, ?_⟩
  rw [parse, ofChars_eq_root_append]
  split
  · next hmarker =>
    refine ⟨⟨fun _ => hmarker, fun _ => rfl⟩, ?_⟩
    intro i s hs
    cases i with
    | zero => exact .inl ⟨rfl, by simpa using hs.symm⟩
    | succ i => exact .inr (attrs_of_mem_body (List.mem_of_getElem? (by simpa using hs)))
  · next hmarker =>
    refine ⟨⟨fun hroot => ?_, fun h => absurd h hmarker⟩, ?_⟩
    · exact absurd (attrs_of_mem_body (List.mem_of_mem_head? hroot)) attrs_root_ne_nil
    · intro i s hs
      exact .inr (attrs_of_mem_body (List.mem_of_getElem? hs))

end Path

end PropertyPath
