import PropertyPath.Proofs.Concatenation
import PropertyPath.Proofs.Conversion
import PropertyPath.Proofs.Simulation
import PropertyPath.Query

/-!
# Looking up JSON documents

A JSON document is looked up by a detour: it is read as a value, the path is resolved on the value,
and what is found there is written as JSON again. Resolving looks into no scalar, so all that the
detour does to a result is what the two conversions do, which is to round integers above the signed
range. And after one lookup there are none of them left, so that a lookup in what was found by
another one finds what a single lookup does.

* `query_eq_direct` — a lookup finds what resolving on the document itself finds, rounded
* `query_append` — texts in a row are looked up one after the other
-/

namespace PropertyPath

namespace Json

/-! ## The detour -/

/-- A lookup rounds what resolving on the document itself finds, and fails at the values that are
read there. -/
theorem query_eq (json : Json) (text : String) : json.query text =
    match json.resolve (Path.parse text) with
    | .ok u => .ok (u.map Primitive.rounded)
    | .error e => .error (e.map Scalar.ofJson) := by
  rw [query, Value.query, Value.ofJson, resolve_map]
  cases json.resolve (Path.parse text) with
  | ok u => exact congrArg Except.ok (Value.toJson_ofJson u)
  | error e => rfl

theorem query_eq_ok_iff {json : Json} {text : String} {j : Json} : json.query text = .ok j ↔
    ∃ u, json.resolve (Path.parse text) = .ok u ∧ u.map Primitive.rounded = j := by
  rw [query_eq]
  cases json.resolve (Path.parse text) <;> simp

theorem query_eq_error_iff {json : Json} {text : String} {e : ResolveError Scalar} :
    json.query text = .error e ↔
      ∃ cause, json.resolve (Path.parse text) = .error cause ∧ cause.map Scalar.ofJson = e := by
  rw [query_eq]
  cases json.resolve (Path.parse text) <;> simp

/-- A lookup does not tell a document from the rounded one. -/
theorem query_map_rounded (json : Json) (text : String) :
    Json.query (json.map Primitive.rounded) text = json.query text := by
  rw [query, Value.ofJson_map_rounded, query]

/-- What is found has no integer above the signed range. -/
theorem fitsSigned_of_query {json : Json} {text : String} {j : Json} (h : json.query text = .ok j) :
    ∀ s ∈ j.leaves, s.FitsSigned := by
  obtain ⟨u, _, rfl⟩ := query_eq_ok_iff.mp h
  rw [Document.leaves_map]
  intro s hs
  obtain ⟨t, _, rfl⟩ := List.mem_map.mp hs
  exact t.fitsSigned_rounded

/-! ## Lookups in a row -/

/-- Lookups in the elements of a rounded document are lookups in those of its value. -/
theorem traverseAt_query (u : Json) (q : String) (depth : Nat) :
    (u.map Primitive.rounded).traverseAt (fun x => Json.query x q) depth
      = ((Value.ofJson u).traverseAt (fun x => Value.query x q) depth).map Value.toJson := by
  calc (u.map Primitive.rounded).traverseAt (fun x => Json.query x q) depth
      = u.traverseAt (fun x => Json.query x q) depth := by
        rw [Document.traverseAt_map]
        simp only [query_map_rounded]
    _ = (u.map Scalar.ofJson).traverseAt
          (fun x => (Value.query x q).map (Document.map Scalar.toJson)) depth := by
        -- an element is looked up through its value
        rw [Document.traverseAt_map]
        rfl
    _ = ((Value.ofJson u).traverseAt (fun x => Value.query x q) depth).map Value.toJson := by
        rw [← Document.map_traverseAt]
        rfl

section Append

variable {json : Json} {p : String} {c : Char} (hc : Path.isDelimiter c = true)
  (hp : p.toList.getLast? ≠ some '\\') (q : String)

include hc hp

theorem query_append_of_ok {j : Json} (h : json.query p = .ok j) :
    json.query (p.push c ++ q) = j.traverseAt (fun x => Json.query x q)
      ((Path.parse p).countP fun s => s.kind = .array) := by
  obtain ⟨u, hu, rfl⟩ := query_eq_ok_iff.mp h
  -- the second text goes on with the value of `u`, which is not yet rounded
  have hvalue : (Value.ofJson json).resolve (Path.parse p) = .ok (Value.ofJson u) := by
    rw [Value.ofJson, resolve_map, hu]
    rfl
  rw [query, Value.query, resolve_parse_append_of_ok hc hp q hvalue, traverseAt_query]
  rfl

theorem query_append_of_error {e : ResolveError Scalar} (h : json.query p = .error e) :
    ∃ e', json.query (p.push c ++ q) = .error e' ∧
      (((Path.parse p).countP fun s => s.kind = .array) = 0 → e' = e) := by
  obtain ⟨cause, hcause, rfl⟩ := query_eq_error_iff.mp h
  obtain ⟨cause', hcause', hflat⟩ := exists_error_of_parse_append hc hp q hcause
  refine ⟨cause'.map Scalar.ofJson, query_eq_error_iff.mpr ⟨cause', hcause', rfl⟩, fun hdepth => ?_⟩
  rw [hflat hdepth]

end Append

end Json

/-- **A JSON document is looked up as if it were resolved itself.** Resolving on the document is
running the lookups of the text on it: fields by key, and arrays element by element. A lookup finds
the same, with integers above the signed range rounded to the nearest float and nothing else
changed. Where resolving on the document fails, the lookup fails in the same way, and at the value
that is read at the same place; that value has the shape that the document has there. -/
theorem query_eq_direct (json : Json) (text : String) :
    json.resolve (Path.parse text) = Lookup.run (Path.parse text).lookups json ∧
    json.query text = (match json.resolve (Path.parse text) with
      | .ok u => .ok (u.map Json.Primitive.rounded)
      | .error (.shapeMismatch expected actual x) =>
        .error (.shapeMismatch expected actual (Value.ofJson x))
      | .error (.missingField field x) => .error (.missingField field (Value.ofJson x))) ∧
    (∀ p : Json.Primitive, p.RoundsTo p.rounded) ∧
    ∀ x : Json, (Value.ofJson x).shape = x.shape := by
  refine ⟨resolve_eq_run _ json, ?_, Json.Primitive.roundsTo_rounded,
    fun x => Document.shape_map Scalar.ofJson x⟩
  rw [Json.query_eq]
  rcases json.resolve (Path.parse text) with (_ | _) | _ <;> rfl

/-- **Texts in a row are looked up one after the other.** What the first text finds is nested as
deep as the text has array segments, and the second text is looked up in every element at that
depth, from left to right; the first failure is the failure of all. What is found has no integer
above the signed range, so the elements are not rounded again. If the first text fails, so does the
longer one, and in the same way when it has no array segment. -/
theorem query_append (json : Json) (p q : String) (c : Char) (hc : Path.isDelimiter c = true)
    (hp : p.toList.getLast? ≠ some '\\') :
    let depth := (Path.parse p).countP fun s => s.kind = .array
    (∀ j, json.query p = .ok j → j.Nested depth ∧ (∀ s ∈ j.leaves, s.FitsSigned) ∧
      json.query (p.push c ++ q) = j.traverseAt (fun x => Json.query x q) depth ∧
      ∀ e, json.query (p.push c ++ q) = .error e ↔
        ∃ before x after, j.elementsAt depth = before ++ x :: after ∧
          (∀ y ∈ before, ∃ z, Json.query y q = .ok z) ∧ Json.query x q = .error e) ∧
    ∀ e, json.query p = .error e →
      ∃ e', json.query (p.push c ++ q) = .error e' ∧ (depth = 0 → e' = e) := by
  refine ⟨fun j hj => ⟨?_, Json.fitsSigned_of_query hj, Json.query_append_of_ok hc hp q hj,
    fun e => ?_⟩, fun e he => Json.query_append_of_error hc hp q he⟩
  · obtain ⟨u, hu, rfl⟩ := Json.query_eq_ok_iff.mp hj
    exact (Document.nested_map_iff _ _ u).mpr (resolve_parse_nested hu)
  · rw [Json.query_append_of_ok hc hp q hj, Document.traverseAt_eq_error_iff]

/-- An integer above the signed range that is rounded by the first lookup and found by the second,
and a field that the first lookup misses, so that there is no second one. -/
theorem query_append_of_rounded :
    (Path.isDelimiter '.' = true ∧ "[]".toList.getLast? ≠ some '\\' ∧
      "a".toList.getLast? ≠ some '\\') ∧
    Json.query (.array [.single "b" (.scalar (.integer 0x8000000000000001 (by decide)))]) "[].b"
      = .ok (.array [.scalar (.float ⟨0x43E0000000000000⟩ (by decide))]) ∧
    Json.query (.object .nil) "a.b" = .error (.missingField "a" (.object .nil)) := by
  have hc : Path.isDelimiter '.' = true := by decide
  have hmarker : "[]".toList.getLast? ≠ some '\\' := by decide
  have hname : "a".toList.getLast? ≠ some '\\' := by decide
  refine ⟨⟨hc, hmarker, hname⟩, ?_, ?_⟩
  · exact ((query_append _ "[]" "b" '.' hc hmarker).1 _ rfl).2.2.1.trans rfl
  · obtain ⟨e, he, hflat⟩ := (query_append (.object .nil) "a" "b" '.' hc hname).2 _ rfl
    rw [hflat rfl] at he
    exact he

end PropertyPath
