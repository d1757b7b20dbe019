import PropertyPath.Path.Render
import PropertyPath.Proofs.Grammar

/-!
# The paths that can be written

Every text stands for a path, but not every path is written by some text. `Writable` says which ones
are, and rendering writes each of them.

## Mechanism

A written path is its segments, with the root in front when the first segment is an unnamed array
segment. `Body` holds the conditions on the segments in the shape of the list, so that a body is
rendered and read back segment by segment: each segment is one token, and no token but the last one
ends in a backslash.

* `body_bodyChars` — a body is read back from its text
* `body_isBody` — what a text is read as is a body
* `parse_image` — a path is parsed from some text exactly when it is writable, and then its own
  rendering is such a text
-/

namespace PropertyPath

namespace Path

/-! ## Writable paths -/

/-- A segment that a token can stand for. A literal stands at the end of a text, so its name may end
in a backslash. -/
structure Plain (s : Segment) : Prop where
  attrs : s.attrs = .nil
  name : s.kind ≠ .literal → s.name.toList.getLast? ≠ some '\\'

/-- The first segment is an unnamed array segment. -/
def StartsUnnamed (p : Path) : Prop := ∃ s ∈ p.head?, s.kind = .array ∧ s.name = ""

/-- Conditions for a path to be what some text stands for. -/
structure Writable (p : Path) : Prop where
  nonempty : p ≠ []
  last : ∀ s ∈ p.getLast?, s.kind ≠ .object
  front : ∀ s ∈ p.dropLast, s.kind ≠ .literal
  names : ∀ s ∈ p, s.kind ≠ .literal → s.name.toList.getLast? ≠ some '\\'
  attrs : ∀ i s, p[i]? = some s →
    s.attrs = .nil ∨ (i = 0 ∧ s = .root ∧ ∃ t, p[1]? = some t ∧ t.kind = .array ∧ t.name = "")
  head : ¬ StartsUnnamed p

/-- The segments behind a root: none is an object at the end, and none is a literal before it. -/
inductive Body : Path → Prop where
  | last {s : Segment} (kind : s.kind ≠ .object) (plain : Plain s) : Body [s]
  | cons {s : Segment} {rest : Path} (kind : s.kind ≠ .literal) (plain : Plain s)
      (body : Body rest) : Body (s :: rest)

theorem Body.ne_nil {p : Path} (h : Body p) : p ≠ [] := by
  cases h <;> simp

theorem body_iff {p : Path} : Body p ↔ p ≠ [] ∧ (∀ s ∈ p.getLast?, s.kind ≠ .object) ∧
    (∀ s ∈ p.dropLast, s.kind ≠ .literal) ∧ ∀ s ∈ p, Plain s := by
  constructor
  · intro h
    induction h with
    | last kind plain => simp [kind, plain]
    | @cons s rest kind plain body ih =>
      obtain ⟨hne, hlast, hfront, hplain⟩ := ih
      obtain ⟨t, more, rfl⟩ := List.exists_cons_of_ne_nil hne
      refine ⟨by simp, by simpa using hlast, ?_, ?_⟩
      · simpa [kind] using hfront
      · simpa [plain] using hplain
  · rintro ⟨hne, hlast, hfront, hplain⟩
    induction p with
    | nil => exact absurd rfl hne
    | cons s rest ih =>
      cases rest with
      | nil => exact .last (hlast s rfl) (hplain s List.mem_cons_self)
      | cons t more =>
        refine .cons (hfront s List.mem_cons_self) (hplain s List.mem_cons_self)
          (ih (by simp) ?_ ?_ ?_)
        · simpa using hlast
        · exact fun a ha => hfront a (List.mem_cons_of_mem _ ha)
        · exact fun a ha => hplain a (List.mem_cons_of_mem _ ha)

theorem isRoot_root : Segment.root.isRoot = true := by
  decide

theorem Plain.isRoot {s : Segment} (h : Plain s) : s.isRoot = false := by
  rw [Segment.isRoot, h.attrs]
  decide

theorem Plain.eq_of {s : Segment} (h : Plain s) : Segment.of s.name s.kind = s := by
  rcases s with ⟨name, kind, attrs⟩
  obtain rfl : attrs = .nil := h.attrs
  rfl

/-- **A path is writable when it is a body that needs no root, or a root before one that does.** -/
theorem writable_iff {p : Path} : Writable p ↔
    (Body p ∧ ¬ StartsUnnamed p) ∨ ∃ b, p = .root :: b ∧ Body b ∧ StartsUnnamed b := by
  constructor
  · intro h
    obtain ⟨s, rest, rfl⟩ := List.exists_cons_of_ne_nil h.nonempty
    have hrest : ∀ t ∈ rest, Plain t := by
      intro t ht
      refine ⟨?_, h.names t (List.mem_cons_of_mem _ ht)⟩
      obtain ⟨i, hi⟩ := List.mem_iff_getElem?.mp ht
      rcases h.attrs (i + 1) t (by simpa using hi) with hattrs | ⟨hzero, _⟩
      · exact hattrs
      · cases hzero
    rcases h.attrs 0 s rfl with hs | ⟨_, rfl, t, ht, hkind, hname⟩
    · refine .inl ⟨body_iff.mpr ⟨h.nonempty, h.last, h.front, ?_⟩, h.head⟩
      intro t ht
      rcases List.mem_cons.mp ht with rfl | ht
      · exact ⟨hs, h.names t List.mem_cons_self⟩
      · exact hrest t ht
    · obtain ⟨more, rfl⟩ : ∃ more, rest = t :: more := by
        cases rest with
        | nil => simp at ht
        | cons a more => exact ⟨more, by simpa using ht⟩
      refine .inr ⟨t :: more, rfl, body_iff.mpr ⟨by simp, ?_, ?_, hrest⟩, t, rfl, hkind, hname⟩
      · exact fun a ha => h.last a (by simpa using ha)
      · exact fun a ha => h.front a (List.mem_cons_of_mem _ ha)
  · rintro (⟨hbody, hhead⟩ | ⟨b, rfl, hbody, t, ht, hkind, hname⟩)
    · obtain ⟨hne, hlast, hfront, hplain⟩ := body_iff.mp hbody
      refine ⟨hne, hlast, hfront, fun s hs => (hplain s hs).name, ?_, hhead⟩
      exact fun i s hs => .inl (hplain s (List.mem_of_getElem? hs)).attrs
    · obtain ⟨hne, hlast, hfront, hplain⟩ := body_iff.mp hbody
      obtain ⟨more, rfl⟩ := List.head?_eq_some_iff.mp ht
      refine ⟨by simp, by simpa using hlast, ?_, ?_, ?_, ?_⟩
      · intro s hs
        rcases List.mem_cons.mp hs with rfl | hs
        · decide
        · exact hfront s hs
      · intro s hs
        rcases List.mem_cons.mp hs with rfl | hs
        · decide
        · exact (hplain s hs).name
      · intro i s hs
        cases i with
        | zero =>
          obtain rfl : Segment.root = s := by simpa using hs
          exact .inr ⟨rfl, rfl, t, rfl, hkind, hname⟩
        | succ i => exact .inl (hplain s (List.mem_of_getElem? (by simpa using hs))).attrs
      · rintro ⟨s, hs, harray, _⟩
        obtain rfl : Segment.root = s := by simpa using hs
        cases harray

/-! ## Reading back one segment -/

theorem nameOf_escape (name : String) : nameOf (escape name.toList) = name := by
  rw [nameOf, unescape_escape, String.ofList_toList]

/-- A segment's text is one token. -/
theorem tokens_segmentChars (s : Segment) : tokens (segmentChars s) = ⟨[], segmentChars s⟩ := by
  have hmark : ∀ escaped,
      Pattern.delimiter.cut escaped (if s.kind = .array then ['[', ']'] else [])
        = ⟨[], if s.kind = .array then ['[', ']'] else []⟩ := by
    intro escaped
    split
    · rw [Pattern.cut_keep rfl, Pattern.cut_keep rfl, Pattern.cut_nil]
      rfl
    · exact Pattern.cut_nil escaped
  rw [tokens, segmentChars, Pattern.cut_escape_append, hmark, Pieces.foldr_keep_open]

theorem escapesNext_escape_name {s : Segment} (hs : Plain s) (h : s.kind ≠ .literal) :
    escapesNext false (escape s.name.toList) = false := by
  rw [escapesNext_escape]
  exact (escapesNext_false_eq_false_iff _).mpr (hs.name h)

/-- A segment that is no literal is written so that a delimiter after it cuts. -/
theorem escapesNext_segmentChars {s : Segment} (hs : Plain s) (h : s.kind ≠ .literal) :
    escapesNext false (segmentChars s) = false := by
  rw [segmentChars, escapesNext_append, escapesNext_escape_name hs h]
  split <;> rfl

/-- **A plain segment is read back from its token.** The kind counts for a token without a
marker. -/
theorem tokenSegments_segmentChars {s : Segment} (hs : Plain s) {kind : SegmentKind}
    (h : s.kind = .array ∨ s.kind = kind) : tokenSegments kind (segmentChars s) = [s] := by
  by_cases harray : s.kind = .array
  · have hguard : escapesNext false (escape s.name.toList) = false :=
      escapesNext_escape_name hs (by rw [harray]; decide)
    have hparts : (parts (segmentChars s)).closed = [escape s.name.toList] := by
      have hcut := Pattern.cut_append_match (p := .marker) (w := ['[', ']']) rfl
        (escape s.name.toList) [] false hguard
      rw [List.append_nil, Pattern.cut_escape, Pattern.cut_nil] at hcut
      rw [parts, segmentChars, if_pos harray, hcut]
      rfl
    rw [tokenSegments, hparts]
    show [Segment.of (nameOf (escape s.name.toList)) .array] = [s]
    rw [nameOf_escape, ← harray, hs.eq_of]
  · obtain rfl : s.kind = kind := h.resolve_left harray
    have hparts : (parts (segmentChars s)).closed = [] := by
      rw [parts, segmentChars, if_neg harray, List.append_nil, Pattern.cut_escape]
    rw [tokenSegments, hparts]
    show [Segment.of (nameOf (segmentChars s)) s.kind] = [s]
    rw [segmentChars, if_neg harray, List.append_nil, nameOf_escape, hs.eq_of]

/-! ## Reading back a path -/

/-- The text of a body: the texts of its segments with points between them. -/
def bodyChars (p : Path) : List Char := ['.'].intercalate (p.map segmentChars)

theorem bodyChars_cons_cons (s t : Segment) (rest : Path) :
    bodyChars (s :: t :: rest) = segmentChars s ++ '.' :: bodyChars (t :: rest) := by
  simp [bodyChars, List.intercalate_cons_cons]

/-- **A body is read back from its text.** -/
theorem body_bodyChars {p : Path} (h : Body p) : body (bodyChars p) = p := by
  induction h with
  | @last s kind plain =>
    have hkind : s.kind = .array ∨ s.kind = .literal := by
      cases hk : s.kind with
      | literal => exact .inr rfl
      | object => exact absurd hk kind
      | array => exact .inl rfl
    have hchars : bodyChars [s] = segmentChars s := by simp [bodyChars]
    rw [hchars, body, tokens_segmentChars]
    exact tokenSegments_segmentChars plain hkind
  | @cons s rest kind plain hbody ih =>
    obtain ⟨t, more, rfl⟩ := List.exists_cons_of_ne_nil hbody.ne_nil
    have hkind : s.kind = .array ∨ s.kind = .object := by
      cases hk : s.kind with
      | literal => exact absurd hk kind
      | object => exact .inr rfl
      | array => exact .inl rfl
    have htokens : tokens (bodyChars (s :: t :: more))
        = ⟨segmentChars s :: (tokens (bodyChars (t :: more))).closed,
          (tokens (bodyChars (t :: more))).last⟩ := by
      have hcut := Pattern.cut_append_match (p := .delimiter) (w := ['.']) rfl (segmentChars s)
        (bodyChars (t :: more)) false (escapesNext_segmentChars plain kind)
      have hone : Pattern.delimiter.cut false (segmentChars s) = _ := tokens_segmentChars s
      rw [bodyChars_cons_cons, tokens, ← List.singleton_append, hcut, hone]
      rfl
    rw [body, htokens, List.flatMap_cons, tokenSegments_segmentChars plain hkind,
      List.append_assoc, List.singleton_append]
    exact congrArg (s :: ·) ih

/-- An escaped name in front of a text starts with no bracket. -/
theorem marker_prefix_escape_append_iff (name y : List Char) :
    ['[', ']'] <+: escape name ++ y ↔ name = [] ∧ ['[', ']'] <+: y := by
  have h := Pattern.cutsAt_escape_append_iff (p := .marker) name y
  simpa only [Pattern.cutsAt_marker_iff, true_and] using h

/-- The text of a body starts with a marker exactly when the body starts with an unnamed array
segment. -/
theorem marker_prefix_bodyChars_iff {p : Path} (h : Body p) :
    ['[', ']'] <+: bodyChars p ↔ StartsUnnamed p := by
  obtain ⟨s, rest, rfl⟩ := List.exists_cons_of_ne_nil h.ne_nil
  obtain ⟨more, hmore, hnot⟩ : ∃ more, bodyChars (s :: rest) = segmentChars s ++ more ∧
      ¬ ['[', ']'] <+: more := by
    cases rest with
    | nil => exact ⟨[], by simp [bodyChars], by simp⟩
    | cons t rest => exact ⟨_, bodyChars_cons_cons s t rest, by simp⟩
  rw [hmore, segmentChars, List.append_assoc, marker_prefix_escape_append_iff]
  constructor
  · rintro ⟨hname, hstart⟩
    split at hstart
    · next harray => exact ⟨s, rfl, harray, String.toList_eq_nil_iff.mp hname⟩
    · exact absurd hstart hnot
  · rintro ⟨t, ht, harray, hname⟩
    obtain rfl : s = t := by simpa using ht
    rw [if_pos harray, hname]
    exact ⟨rfl, more, rfl⟩

theorem filter_isRoot_of_body {b : Path} (h : Body b) : b.filter (fun s => !s.isRoot) = b := by
  rw [List.filter_eq_self]
  intro s hs
  rw [((body_iff.mp h).2.2.2 s hs).isRoot]
  rfl

/-- The root is not written. -/
theorem chars_of_body {b : Path} (h : Body b) :
    chars b = bodyChars b ∧ chars (.root :: b) = bodyChars b := by
  constructor
  · rw [chars, filter_isRoot_of_body h, bodyChars]
  · rw [chars, List.filter_cons_of_neg (by simp [isRoot_root]), filter_isRoot_of_body h, bodyChars]

/-- **A writable path is read back from its rendering.** -/
theorem ofChars_chars {p : Path} (h : Writable p) : ofChars (chars p) = p := by
  rcases writable_iff.mp h with ⟨hbody, hhead⟩ | ⟨b, rfl, hbody, hhead⟩
  · have hmarker : ¬ ['[', ']'] <+: bodyChars p :=
      fun hm => hhead ((marker_prefix_bodyChars_iff hbody).mp hm)
    rw [(chars_of_body hbody).1, ofChars_eq_root_append, if_neg hmarker, body_bodyChars hbody]
    rfl
  · have hmarker : ['[', ']'] <+: bodyChars b := (marker_prefix_bodyChars_iff hbody).mpr hhead
    rw [(chars_of_body hbody).2, ofChars_eq_root_append, if_pos hmarker, body_bodyChars hbody]
    rfl

/-! ## What texts stand for -/

theorem plain_of_piece {piece : List Char} (h : escapesNext false piece = false)
    (kind : SegmentKind) : Plain (.of (nameOf piece) kind) where
  attrs := rfl
  name := by
    intro _
    show (String.ofList (unescape piece)).toList.getLast? ≠ some '\\'
    rw [String.toList_ofList, ← escapesNext_false_eq_false_iff, escapesNext_unescape]
    exact h

theorem nameOf_eq_empty_iff (piece : List Char) : nameOf piece = "" ↔ piece = [] := by
  rw [← unescape_eq_nil_iff piece, ← String.toList_eq_nil_iff, nameOf, String.toList_ofList]

/-- The parts of a token that a marker follows make plain array segments. -/
theorem plain_of_mem_closed {token part : List Char} (h : part ∈ (parts token).closed) :
    Plain (.of (nameOf part) .array) :=
  plain_of_piece ((Pattern.guarded_cut false token).of_mem h) .array

theorem plain_of_mem_tokenSegments {token : List Char} (h : escapesNext false token = false)
    {s : Segment} (hs : s ∈ tokenSegments .object token) : s.kind ≠ .literal ∧ Plain s := by
  unfold tokenSegments at hs
  split at hs
  · obtain rfl := List.mem_singleton.mp hs
    exact ⟨by simp, plain_of_piece h .object⟩
  · next piece pieces hclosed =>
    obtain ⟨part, hpart, rfl⟩ := List.mem_map.mp hs
    exact ⟨by simp, plain_of_mem_closed (hclosed ▸ hpart)⟩

/-- The last token ends a body. -/
theorem body_tokenSegments (token : List Char) : Body (tokenSegments .literal token) := by
  unfold tokenSegments
  split
  · exact .last (by simp) ⟨rfl, fun h => absurd rfl h⟩
  · next piece pieces hclosed =>
    have hmem : ∀ s ∈ (piece :: pieces).map fun part => Segment.of (nameOf part) .array,
        s.kind = .array ∧ Plain s := by
      intro s hs
      obtain ⟨part, hpart, rfl⟩ := List.mem_map.mp hs
      exact ⟨rfl, plain_of_mem_closed (hclosed ▸ hpart)⟩
    refine body_iff.mpr ⟨by simp, ?_, ?_, fun s hs => (hmem s hs).2⟩
    · intro s hs
      rw [(hmem s (List.mem_of_getLast? hs)).1]
      decide
    · intro s hs
      rw [(hmem s ((List.dropLast_sublist _).subset hs)).1]
      decide

theorem body_append {front rest : Path} (h : Body rest)
    (hfront : ∀ s ∈ front, s.kind ≠ .literal ∧ Plain s) : Body (front ++ rest) := by
  induction front with
  | nil => exact h
  | cons s front ih =>
    obtain ⟨hkind, hplain⟩ := hfront s List.mem_cons_self
    exact .cons hkind hplain (ih fun t ht => hfront t (List.mem_cons_of_mem _ ht))

/-- **What a text is read as is a body.** -/
theorem body_isBody (text : List Char) : Body (body text) := by
  refine body_append (body_tokenSegments _) fun s hs => ?_
  obtain ⟨token, htoken, hs⟩ := List.mem_flatMap.mp hs
  exact plain_of_mem_tokenSegments ((Pattern.guarded_cut false text).of_mem htoken) hs

theorem startsUnnamed_tokenSegments {kind : SegmentKind} (hkind : kind ≠ .array)
    (token : List Char) (rest : Path) :
    StartsUnnamed (tokenSegments kind token ++ rest) ↔ ['[', ']'] <+: token := by
  rw [← head?_closed_parts, tokenSegments]
  rcases (parts token).closed with _ | ⟨piece, pieces⟩
  · simp [StartsUnnamed, hkind]
  · simp [StartsUnnamed, nameOf_eq_empty_iff]

theorem startsUnnamed_body (text : List Char) :
    StartsUnnamed (body text) ↔ ['[', ']'] <+: text := by
  have hfirst : StartsUnnamed (body text) ↔ ['[', ']'] <+: (tokens text).first := by
    rw [body, Pieces.first]
    rcases (tokens text).closed with _ | ⟨token, closed⟩
    · rw [List.flatMap_nil, List.nil_append, ← List.append_nil (tokenSegments _ _)]
      exact startsUnnamed_tokenSegments (by decide) _ _
    · rw [List.flatMap_cons, List.append_assoc]
      exact startsUnnamed_tokenSegments (by decide) _ _
  rw [hfirst, marker_prefix_first_iff]

theorem writable_ofChars (text : List Char) : Writable (ofChars text) := by
  rw [writable_iff, ofChars_eq_root_append]
  split
  · next hmarker =>
    exact .inr ⟨_, rfl, body_isBody text, (startsUnnamed_body text).mpr hmarker⟩
  · next hmarker =>
    exact .inl ⟨body_isBody text, fun h => hmarker ((startsUnnamed_body text).mp h)⟩

theorem parse_render {p : Path} (h : Writable p) : parse (render p) = p := by
  rw [parse, render, String.toList_ofList, ofChars_chars h]

/-- **A path is parsed from some text exactly when it is writable,** and then its own rendering is
such a text. So rendering what was parsed and parsing it again changes nothing. -/
theorem parse_image :
    (∀ p : Path, (∃ text, parse text = p) ↔ Writable p) ∧
    (∀ p : Path, Writable p → parse (render p) = p) ∧
    ∀ text, parse (render (parse text)) = parse text := by
  have hwritable : ∀ text, Writable (parse text) := fun text => writable_ofChars text.toList
  refine ⟨fun p => ⟨?_, fun h => ⟨render p, parse_render h⟩⟩, fun p h => parse_render h,
    fun text => parse_render (hwritable text)⟩
  rintro ⟨text, rfl⟩
  exact hwritable text

end Path

end PropertyPath
