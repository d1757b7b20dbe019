import PropertyPath.Proofs.Lookups
import PropertyPath.Query

/-!
# What path texts can address

A path text is a program of lookups, but not every program has a text. An empty name looks up
nothing, so no text looks up the empty key. A backslash at the end of a name would keep the cut
behind it away, so only the last name of a text can end in one. All other programs have a text, and
it is written down directly: escaped names and markers, with points between them.

* `query_text` — the text of an addressable program does what the program does
* `addressable_lookups_parse` — what a text looks up is addressable
* `exists_text_iff_addressable` — so the addressable programs are those that have a text
-/

namespace PropertyPath

namespace Lookup

/-! ## Programs as texts -/

/-- Conditions for a program to have a text: no name is empty, and none but that of the last
instruction ends in a backslash. -/
structure Addressable (program : List Lookup) : Prop where
  named : ∀ name, .field name ∈ program → name ≠ ""
  front : ∀ name, .field name ∈ program.dropLast → name.toList.getLast? ≠ some '\\'

/-- The text of an instruction: an escaped name, or a marker. -/
def chars : Lookup → List Char
  | field name => Path.escape name.toList
  | each => ['[', ']']

/-- The text of a program: those of its instructions with points between them. -/
def text (program : List Lookup) : String :=
  String.ofList (['.'].intercalate (program.map chars))

/-! ## Programs as paths -/

/-- An instruction as a segment. The kind is that of a field. -/
def segment (kind : SegmentKind) : Lookup → Segment
  | field name => .of name kind
  | each => .of "" .array

/-- A program as a path. Only the last instruction can be a literal, and a path that looks up
nothing is a literal without a name. -/
def path : List Lookup → Path
  | [] => [.of "" .literal]
  | [i] => [i.segment .literal]
  | i :: j :: rest => i.segment .object :: path (j :: rest)

theorem segmentChars_segment {kind : SegmentKind} (h : kind ≠ .array) (i : Lookup) :
    Path.segmentChars (i.segment kind) = i.chars := by
  cases i with
  | field name => simp [segment, Path.segmentChars, chars, h]
  | each => simp [segment, Path.segmentChars, chars, Path.escape]

/-- The path of a program is written as the program is. -/
theorem bodyChars_path (program : List Lookup) :
    Path.bodyChars (path program) = ['.'].intercalate (program.map chars) := by
  induction program using path.induct with
  | case1 => simp [path, Path.bodyChars, Path.segmentChars, Path.escape]
  | case2 i => simp [path, Path.bodyChars, segmentChars_segment]
  | case3 i j rest ih =>
    obtain ⟨s, more, hpath⟩ : ∃ s more, path (j :: rest) = s :: more := by
      cases rest <;> exact ⟨_, _, rfl⟩
    rw [path, hpath, Path.bodyChars_cons_cons, ← hpath, ih, segmentChars_segment (by decide),
      List.map_cons, List.map_cons, List.map_cons, List.intercalate_cons_cons]
    simp

/-- A program of non-empty names is what its path looks up. -/
theorem lookups_path (program : List Lookup) (h : ∀ name, .field name ∈ program → name ≠ "") :
    (path program).lookups = program := by
  induction program using path.induct with
  | case1 => rfl
  | case2 i =>
    cases i with
    | field name =>
      have hname : name ≠ "" := h name List.mem_cons_self
      exact lookups_leaf [] (Segment.action_eq_leaf_iff.mpr
        ⟨rfl, Segment.hasName_eq_true_iff.mpr hname⟩)
    | each => rfl
  | case3 i j rest ih =>
    have hrest := ih fun name hmem => h name (List.mem_cons_of_mem _ hmem)
    cases i with
    | field name =>
      have hname : name ≠ "" := h name List.mem_cons_self
      have haction : (Segment.of name .object).action = .descend :=
        Segment.action_eq_descend_iff.mpr ⟨rfl, rfl, Segment.hasName_eq_true_iff.mpr hname⟩
      show Path.lookups (.of name .object :: path (j :: rest)) = _
      rw [lookups_descend _ haction, hrest]
      rfl
    | each =>
      show Path.lookups (.of "" .array :: path (j :: rest)) = _
      rw [lookups_fanOut _ (Segment.action_eq_fanOut_iff.mpr rfl), hrest]
      rfl

theorem plain_segment {i : Lookup} (kind : SegmentKind)
    (h : ∀ name, i = .field name → kind ≠ .literal → name.toList.getLast? ≠ some '\\') :
    Path.Plain (i.segment kind) := by
  cases i with
  | field name => exact ⟨rfl, h name rfl⟩
  | each => exact ⟨rfl, fun _ => by simp [segment]⟩

/-- The path of a program can be written when only the last name ends in a backslash. -/
theorem body_path (program : List Lookup)
    (h : ∀ name, .field name ∈ program.dropLast → name.toList.getLast? ≠ some '\\') :
    Path.Body (path program) := by
  induction program using path.induct with
  | case1 => exact .last (by simp) ⟨rfl, fun hkind => absurd rfl hkind⟩
  | case2 i =>
    refine .last ?_ (plain_segment .literal fun _ _ hkind => absurd rfl hkind)
    cases i <;> simp [segment]
  | case3 i j rest ih =>
    rw [List.dropLast_cons_cons] at h
    refine .cons ?_ (plain_segment .object fun name hi _ => ?_) (ih fun name hmem => ?_)
    · cases i <;> simp [segment]
    · exact h name (by rw [hi]; exact List.mem_cons_self)
    · exact h name (List.mem_cons_of_mem _ hmem)

/-- **The text of an addressable program does what the program does.** -/
theorem query_text {program : List Lookup} (h : Addressable program) (v : Value) :
    v.query (text program) = run program v := by
  have hlookups : (Path.parse (text program)).lookups = program := by
    rw [Path.parse, text, String.toList_ofList, ← bodyChars_path, Path.lookups_ofChars,
      Path.body_bodyChars (body_path program h.front), lookups_path program h.named]
  rw [Value.query, resolve_eq_run, hlookups]

/-! ## Texts as programs -/

theorem mem_dropLast_append {α : Type} {a : α} {front rest : List α}
    (h : a ∈ (front ++ rest).dropLast) : a ∈ front ∨ a ∈ rest.dropLast := by
  by_cases hrest : rest = []
  · rw [hrest, List.append_nil] at h
    exact .inl ((List.dropLast_sublist front).subset h)
  · rw [List.dropLast_append_of_ne_nil hrest] at h
    exact List.mem_append.mp h

/-- The lookups of a segment that is no literal stand in front of those of what is left. -/
theorem exists_lookups_cons {s : Segment} (h : s.kind ≠ .literal) (rest : Path) :
    ∃ front, Path.lookups (s :: rest) = front ++ rest.lookups ∧
      ∀ name, .field name ∈ front → name = s.name := by
  rw [Path.lookups]
  cases hkind : s.kind with
  | literal => exact absurd hkind h
  | object =>
    dsimp only
    split
    · exact ⟨[], rfl, by simp⟩
    · exact ⟨[.field s.name], rfl, by simp⟩
  | array =>
    dsimp only
    split
    · exact ⟨[.field s.name, .each], rfl, by simp⟩
    · exact ⟨[.each], rfl, by simp⟩

/-- A path that can be written looks up no name that ends in a backslash, unless at its end. -/
theorem getLast?_ne_of_mem_dropLast_lookups {p : Path} (h : Path.Body p) {name : String}
    (hmem : .field name ∈ p.lookups.dropLast) : name.toList.getLast? ≠ some '\\' := by
  induction h with
  | @last s kind plain =>
    cases hkind : s.kind with
    | literal =>
      -- a literal is one lookup at most, and that one is the last
      rw [Path.lookups, hkind] at hmem
      dsimp only at hmem
      split at hmem <;> cases hmem
    | object => exact absurd hkind kind
    | array =>
      have hliteral : s.kind ≠ .literal := by rw [hkind]; decide
      obtain ⟨front, hfront, hname⟩ := exists_lookups_cons hliteral []
      rw [hfront] at hmem
      rcases mem_dropLast_append hmem with hmem | hmem
      · rw [hname name hmem]
        exact plain.name hliteral
      · cases hmem
  | @cons s rest kind plain _ ih =>
    obtain ⟨front, hfront, hname⟩ := exists_lookups_cons kind rest
    rw [hfront] at hmem
    rcases mem_dropLast_append hmem with hmem | hmem
    · rw [hname name hmem]
      exact plain.name kind
    · exact ih hmem

/-- **What a text looks up is addressable.** -/
theorem addressable_lookups_parse (text : String) : Addressable (Path.parse text).lookups where
  named := fun _ hmem => name_ne_empty_of_mem_lookups _ hmem
  front := by
    intro name hmem
    rw [Path.parse, Path.lookups_ofChars] at hmem
    exact getLast?_ne_of_mem_dropLast_lookups (Path.body_isBody _) hmem

/-! ## Reachable fields -/

/-- A chain of fields is addressable when its keys are. -/
theorem addressable_map_field_iff (names : List String) : Addressable (names.map .field) ↔
    (∀ name ∈ names, name ≠ "") ∧ ∀ name ∈ names.dropLast, name.toList.getLast? ≠ some '\\' := by
  have hmem : ∀ (name : String) (keys : List String),
      Lookup.field name ∈ keys.map .field ↔ name ∈ keys := by
    intro name keys
    simp
  constructor
  · intro h
    refine ⟨fun name hname => h.named name ((hmem name names).mpr hname), fun name hname => ?_⟩
    exact h.front name (by rw [← List.map_dropLast]; exact (hmem name _).mpr hname)
  · rintro ⟨hnamed, hfront⟩
    refine ⟨fun name hname => hnamed name ((hmem name names).mp hname), fun name hname => ?_⟩
    rw [← List.map_dropLast] at hname
    exact hfront name ((hmem name _).mp hname)

end Lookup

/-- **The programs that have a text are the addressable ones.** A program is what some text does on
every value exactly when it looks up no empty name, and none that ends in a backslash before its
end; and then its own text does it. So the fields out of reach are those under the empty key and
those beneath a key that ends in a backslash. -/
theorem exists_text_iff_addressable :
    (∀ program : List Lookup,
      (∃ text, ∀ v : Value, v.query text = Lookup.run program v) ↔
        Lookup.Addressable program) ∧
    (∀ program : List Lookup, Lookup.Addressable program →
      ∀ v : Value, v.query (Lookup.text program) = Lookup.run program v) ∧
    ∀ keys : List String,
      (∃ text, ∀ v : Value, v.query text = Lookup.run (keys.map .field) v) ↔
        (∀ key ∈ keys, key ≠ "") ∧ ∀ key ∈ keys.dropLast, key.toList.getLast? ≠ some '\\' := by
  have hiff : ∀ program : List Lookup,
      (∃ text, ∀ v : Value, v.query text = Lookup.run program v) ↔
        Lookup.Addressable program := by
    intro program
    constructor
    · rintro ⟨text, htext⟩
      -- the text looks up the program itself, as they agree on all values
      have hlookups : (Path.parse text).lookups = program :=
        Lookup.run_injective fun v : Value => by rw [← resolve_eq_run, ← htext, Value.query]
      rw [← hlookups]
      exact Lookup.addressable_lookups_parse text
    · exact fun h => ⟨Lookup.text program, Lookup.query_text h⟩
  exact ⟨hiff, fun program h => Lookup.query_text h, fun keys =>
    (hiff _).trans (Lookup.addressable_map_field_iff keys)⟩

/-- A key with a point in it, an array, and a key that ends in a backslash, which stands last. -/
theorem query_text_of_escaped_keys :
    Lookup.Addressable [.field "a.b", .each, .field "c\\"] ∧
    Lookup.text [.field "a.b", .each, .field "c\\"] = "a\\.b.[].c\\" ∧
    Value.query (.single "a.b" (.array [.single "c\\" Value.null]))
      (Lookup.text [.field "a.b", .each, .field "c\\"]) = .ok (.array [Value.null]) := by
  have haddressable : Lookup.Addressable [.field "a.b", .each, .field "c\\"] :=
    ⟨by simp, by simp⟩
  exact ⟨haddressable, by decide, (exists_text_iff_addressable.2.1 _ haddressable _).trans rfl⟩

end PropertyPath
