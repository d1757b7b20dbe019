import PropertyPath.Proofs.Append

/-!
# Path texts in a row

Two path texts with a delimiter between them are one path text, unless a backslash stands in front
of the delimiter. Its path is that of the first text, with a descent in the place of the literal at
its end, and then that of the second text, without the root. Neither change is one of the lookups,
so the text resolves as the two texts do, one after the other.

* `ofChars_append`, `parse_append` — texts in a row are paths in a row
* `lookups_descending` — a descent at the end looks up what a literal does
* `resolve_parse_append_of_ok`, `exists_error_of_parse_append` — resolving texts in a row
-/

namespace PropertyPath

/-! ## Descents in the place of literals -/

/-- Enters the field that a literal returns. -/
def Segment.descending (s : Segment) : Segment :=
  match s.kind with
  | .literal => .of s.name .object
  | .object | .array => s

namespace Path

/-- Makes every literal a descent. -/
def descending (p : Path) : Path := p.map Segment.descending

end Path

namespace Segment

variable {s : Segment}

theorem descending_literal (h : s.kind = .literal) : s.descending = .of s.name .object := by
  simp only [descending, h]

theorem descending_of_ne_literal (h : s.kind ≠ .literal) : s.descending = s := by
  unfold descending
  cases hkind : s.kind with
  | literal => exact absurd hkind h
  | object | array => rfl

/-- No descent is a literal. -/
theorem kind_descending_ne (s : Segment) : s.descending.kind ≠ .literal := by
  by_cases h : s.kind = .literal
  · rw [descending_literal h, kind_of]
    decide
  · rw [descending_of_ne_literal h]
    exact h

/-- Array segments stay what they are, and no other segment becomes one. -/
theorem kind_descending_eq_array_iff (s : Segment) :
    s.descending.kind = .array ↔ s.kind = .array := by
  by_cases h : s.kind = .literal
  · rw [descending_literal h, h, kind_of]
    decide
  · rw [descending_of_ne_literal h]

end Segment

namespace Path

theorem kind_ne_of_mem_descending {p : Path} : ∀ s ∈ p.descending, s.kind ≠ .literal := by
  intro s hs
  obtain ⟨t, _, rfl⟩ := List.mem_map.mp hs
  exact t.kind_descending_ne

theorem descending_append (p q : Path) : (p ++ q).descending = p.descending ++ q.descending :=
  List.map_append

theorem descending_eq_self {p : Path} (h : ∀ s ∈ p, s.kind ≠ .literal) : p.descending = p := by
  rw [descending, List.map_congr_left fun s hs => Segment.descending_of_ne_literal (h s hs)]
  exact List.map_id' p

/-- With descents in the place of literals, a path has all its array segments as fan-outs. -/
theorem fanOuts_descending (p : Path) :
    p.descending.fanOuts = p.countP fun s => s.kind = .array := by
  rw [fanOuts_eq_countP kind_ne_of_mem_descending, descending, List.countP_map]
  refine List.countP_congr fun s _ => ?_
  simp only [Function.comp_apply, decide_eq_true_eq, Segment.kind_descending_eq_array_iff]

/-- A descent with nothing behind it finds what a literal does. -/
theorem lookups_singleton_descending (s : Segment) : lookups [s.descending] = lookups [s] := by
  by_cases h : s.kind = .literal
  · rw [Segment.descending_literal h]
    cases hname : s.hasName with
    | true =>
      have hdescend : (Segment.of s.name .object).action = .descend :=
        Segment.action_eq_descend_iff.mpr ⟨rfl, rfl, hname⟩
      rw [lookups_descend [] hdescend, lookups_leaf [] (Segment.action_eq_leaf_iff.mpr ⟨h, hname⟩)]
      rfl
    | false =>
      have hroot : (Segment.of s.name .object).action = .root :=
        Segment.action_eq_root_iff.mpr ⟨rfl, .inr hname⟩
      have hverbatim : s.action = .verbatim := Segment.action_eq_verbatim_iff.mpr ⟨h, hname⟩
      rw [lookups_root [] hroot, lookups_verbatim [] hverbatim]
      rfl
  · rw [Segment.descending_of_ne_literal h]

/-- **A descent at the end looks up what a literal does.** -/
theorem lookups_descending {p : Path} (h : ∀ s ∈ p.dropLast, s.kind ≠ .literal) :
    p.descending.lookups = p.lookups := by
  rcases List.eq_nil_or_concat p with rfl | ⟨front, s, rfl⟩
  · rfl
  · rw [List.concat_eq_append, List.dropLast_concat] at h
    rw [List.concat_eq_append, descending_append, descending_eq_self h]
    exact lookups_append_congr front (lookups_singleton_descending s)

/-! ## Texts in a row -/

/-- A token that is no longer the last one is a descent instead of a literal. -/
theorem descending_tokenSegments_literal (token : List Char) :
    (tokenSegments .literal token).descending = tokenSegments .object token := by
  unfold tokenSegments
  split
  · rfl
  · refine descending_eq_self fun s hs => ?_
    obtain ⟨part, _, rfl⟩ := List.mem_map.mp hs
    rw [Segment.kind_of]
    decide

theorem descending_flatMap_tokenSegments_object (tokens : List (List Char)) :
    descending (tokens.flatMap (tokenSegments .object))
      = tokens.flatMap (tokenSegments .object) := by
  refine descending_eq_self fun s hs => ?_
  obtain ⟨token, _, hs⟩ := List.mem_flatMap.mp hs
  rw [← descending_tokenSegments_literal] at hs
  exact kind_ne_of_mem_descending s hs

section Append

variable {x : List Char} {c : Char} (hc : isDelimiter c = true) (y : List Char)

include hc

/-- A delimiter neither makes nor breaks a marker in front. -/
theorem marker_prefix_append_iff : ['[', ']'] <+: x ++ c :: y ↔ ['[', ']'] <+: x := by
  have hopen : '[' ≠ c := (ne_of_isDelimiter hc (by decide)).symm
  have hclose : ']' ≠ c := (ne_of_isDelimiter hc (by decide)).symm
  rcases x with _ | ⟨a, _ | ⟨b, rest⟩⟩
  · simp [hopen]
  · simp [hclose]
  · simp

variable (hx : escapesNext false x = false)

include hx

theorem body_append_delimiter : body (x ++ c :: y) = (body x).descending ++ body y := by
  have htokens : tokens (x ++ c :: y) = (tokens x).followedBy (tokens y) :=
    Pattern.cut_append_match (p := .delimiter) (w := [c]) hc x y false hx
  simp only [body, htokens, Pieces.followedBy, Pieces.toList, List.flatMap_append,
    List.flatMap_cons, List.flatMap_nil, List.append_nil, descending_append,
    descending_flatMap_tokenSegments_object, descending_tokenSegments_literal, List.append_assoc]

/-- **Texts in a row are paths in a row.** The literal at the end of the first is a descent, and the
second has no root. -/
theorem ofChars_append : ofChars (x ++ c :: y) = (ofChars x).descending ++ body y := by
  rw [ofChars_eq_root_append, ofChars_eq_root_append, body_append_delimiter hc y hx,
    descending_append, List.append_assoc]
  simp only [marker_prefix_append_iff hc y]
  split <;> rfl

end Append

/-- **Texts in a row are parsed as paths in a row.** The path of the first text keeps its segments,
except that a literal at its end becomes a descent of the same name. The path of the second text
loses the root that a marker at its start has put in front. -/
theorem parse_append (p q : String) (c : Char) (hc : isDelimiter c = true)
    (hp : p.toList.getLast? ≠ some '\\') :
    ∃ front last rest, parse p = front ++ [last] ∧ last.kind ≠ .object ∧
      parse q = (if ['[', ']'] <+: q.toList then [.root] else []) ++ rest ∧
      parse (p.push c ++ q) = front ++ last.descending :: rest := by
  have hwritable : Writable (parse p) := writable_ofChars p.toList
  have hx : escapesNext false p.toList = false := (escapesNext_false_eq_false_iff _).mpr hp
  have hchars : (p.push c ++ q).toList = p.toList ++ c :: q.toList := by simp
  obtain ⟨front, last, hsplit⟩ := (List.eq_nil_or_concat (parse p)).resolve_left hwritable.nonempty
  rw [List.concat_eq_append] at hsplit
  refine ⟨front, last, body q.toList, hsplit, ?_, ofChars_eq_root_append _, ?_⟩
  · exact hwritable.last last (by rw [hsplit, List.getLast?_concat]; rfl)
  · -- the segments before the last are no literals, so they stay as they are
    have hfront : ∀ s ∈ front, s.kind ≠ .literal := by
      have hdropLast := hwritable.front
      rwa [hsplit, List.dropLast_concat] at hdropLast
    have hdescending : (parse p).descending = front ++ [last.descending] := by
      rw [hsplit, descending_append, descending_eq_self hfront]
      rfl
    calc parse (p.push c ++ q)
        = (parse p).descending ++ body q.toList := by
          rw [parse, hchars, ofChars_append hc _ hx, parse]
      _ = front ++ last.descending :: body q.toList := by
          rw [hdescending, List.append_assoc, List.singleton_append]

/-- A literal that becomes a descent, and a marker behind it that brings no root. -/
theorem parse_append_name_marker :
    (isDelimiter '|' = true ∧ "a".toList.getLast? ≠ some '\\') ∧
    parse "a|[].b" = [.of "a" .object, .of "" .array, .of "b" .literal] := by
  have hc : isDelimiter '|' = true := by decide
  have hp : "a".toList.getLast? ≠ some '\\' := by decide
  refine ⟨⟨hc, hp⟩, ?_⟩
  obtain ⟨front, last, rest, hfirst, _, hsecond, h⟩ := parse_append "a" "[].b" '|' hc hp
  have hfirst' : [Segment.of "a" .literal] = front ++ [last] := hfirst
  have hsecond' : [.of "" .array, .of "b" .literal] = rest := List.tail_eq_of_cons_eq hsecond
  obtain ⟨rfl, rfl⟩ : front = [] ∧ last = .of "a" .literal := by
    simpa [List.cons_eq_append_iff] using hfirst'
  rw [← hsecond'] at h
  exact h

end Path

/-! ## Resolving texts in a row -/

section Continued

variable {σ : Type} {p : String} {c : Char} (hc : Path.isDelimiter c = true)
  (hp : p.toList.getLast? ≠ some '\\') (q : String) {v : Document σ}

theorem resolve_descending_parse (v : Document σ) (p : String) :
    v.resolve (Path.parse p).descending = v.resolve (Path.parse p) := by
  have hwritable : Path.Writable (Path.parse p) := Path.writable_ofChars p.toList
  rw [resolve_eq_run, resolve_eq_run, Path.lookups_descending hwritable.front]

/-- What a text finds is nested as deep as it has array segments. -/
theorem resolve_parse_nested {u : Document σ} (hu : v.resolve (Path.parse p) = .ok u) :
    u.Nested ((Path.parse p).countP fun s => s.kind = .array) := by
  rw [← resolve_descending_parse] at hu
  rw [← Path.fanOuts_descending]
  exact Document.resolve_nested _ v u hu

include hc hp

/-- **Texts in a row resolve one after the other.** -/
theorem resolve_parse_append (v : Document σ) : v.resolve (Path.parse (p.push c ++ q))
    = v.resolve ((Path.parse p).descending ++ Path.parse q) := by
  have hchars : (p.push c ++ q).toList = p.toList ++ c :: q.toList := by simp
  have hx := (Path.escapesNext_false_eq_false_iff p.toList).mpr hp
  rw [resolve_eq_run, resolve_eq_run, Path.lookups_append Path.kind_ne_of_mem_descending,
    Path.parse, hchars, Path.ofChars_append hc _ hx,
    Path.lookups_append Path.kind_ne_of_mem_descending, Path.parse, Path.parse,
    Path.lookups_ofChars q.toList]

/-- What a text finds is gone through by the text behind it. -/
theorem resolve_parse_append_of_ok {u : Document σ} (hu : v.resolve (Path.parse p) = .ok u) :
    v.resolve (Path.parse (p.push c ++ q)) = u.traverseAt (fun x => x.resolve (Path.parse q))
      ((Path.parse p).countP fun s => s.kind = .array) := by
  rw [← resolve_descending_parse] at hu
  rw [resolve_parse_append hc hp, resolve_append_of_ok Path.kind_ne_of_mem_descending _ hu,
    Path.fanOuts_descending]

/-- Where a text fails, so does the longer one, and without arrays it fails in the same way. -/
theorem exists_error_of_parse_append {e : ResolveError σ}
    (he : v.resolve (Path.parse p) = .error e) :
    ∃ e', v.resolve (Path.parse (p.push c ++ q)) = .error e' ∧
      (((Path.parse p).countP fun s => s.kind = .array) = 0 → e' = e) := by
  rw [← resolve_descending_parse] at he
  rw [resolve_parse_append hc hp, ← Path.fanOuts_descending]
  exact exists_error_of_append Path.kind_ne_of_mem_descending _ he

end Continued

end PropertyPath
