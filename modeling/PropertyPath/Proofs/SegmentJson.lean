import PropertyPath.Proofs.Conversion
import PropertyPath.Proofs.Drafts
import PropertyPath.Proofs.Grammar

/-!
# What the JSON form of a path tells

The JSON form of a segment keeps its name, its kind and its attributes apart, whatever names the
attributes have. The one thing that it does not tell is which float stood where there is null now.

* `Document.mapFields_eq_iff` — replacements that can be told from each other tell the same
* `Segment.toJson_eq_iff`, `Path.toJson_eq_iff` — segments and paths with the same JSON form
* `Segment.saysRoot_toJson` — the JSON form of a segment says whether it is a root
* `Path.toJson_faithful` — what the JSON form of a path tells
-/

namespace PropertyPath

/-! ## Replacements that tell the same -/

namespace Document

variable {σ ρ υ : Type}

/-- What stands under a key of an object. -/
def member? (v : Document σ) (key : String) : Option (Document σ) :=
  v.fields?.bind fun fields => fields.get? key

/-- **Replacements that can be told from each other tell the same of the fields of an object.** -/
theorem mapFields_eq_iff {f : σ → ρ} {g : σ → υ} {back : ρ → υ} {forth : υ → ρ}
    (hback : ∀ s, back (f s) = g s) (hforth : ∀ s, forth (g s) = f s)
    {fields others : Fields (Document σ)} :
    mapFields f fields = mapFields f others ↔ mapFields g fields = mapFields g others := by
  obtain rfl : back ∘ f = g := funext hback
  constructor
  · intro h
    rw [← mapFields_mapFields, h, mapFields_mapFields]
  · intro h
    have hundo : forth ∘ back ∘ f = f := funext hforth
    rw [← hundo, ← mapFields_mapFields, h, mapFields_mapFields]

end Document

/-! ## Scalars -/

namespace Scalar

/-- What is lost anyway makes no difference to the JSON form. -/
theorem toJson_finiteOrNull (s : Scalar) : s.finiteOrNull.toJson = s.toJson := by
  cases s with
  | float x =>
    by_cases h : x.IsFinite
    · rw [finiteOrNull, if_pos h]
    · rw [finiteOrNull, if_neg h, toJson, toJson, dif_neg h]
  | null | boolean _ | integer _ | string _ => rfl

theorem toJson_eq_boolean_iff {s : Scalar} {b : Bool} :
    s.toJson = .boolean b ↔ s = .boolean b := by
  cases s with
  | float x => by_cases h : x.IsFinite <;> simp [toJson, h]
  | null | boolean _ | integer _ | string _ => simp [toJson]

end Scalar

theorem Value.toJson_eq_boolean_iff {v : Value} {b : Bool} :
    v.toJson = .scalar (.boolean b) ↔ v = Value.ofBool b := by
  cases v with
  | scalar s => simp [toJson, ofBool, Document.map, Scalar.toJson_eq_boolean_iff]
  | array _ | object _ => simp [toJson, ofBool, Document.map]

/-! ## Segments -/

namespace Segment

/-- The attributes with null in the place of every float that is not finite. -/
def finiteAttrs (s : Segment) : Fields Value := Document.mapFields Scalar.finiteOrNull s.attrs

/-- The two have one name and one kind, and their attributes are the same up to floats that are not
finite, each of which may stand for another or for null. -/
structure Agrees (s t : Segment) : Prop where
  name : s.name = t.name
  kind : s.kind = t.kind
  attrs : s.finiteAttrs = t.finiteAttrs

theorem member?_toJson (s : Segment) (key : String) : s.toJson.member? key = lastWrite [
    ("meta", .object (Document.mapFields Scalar.toJson s.attrs)),
    ("name", .scalar (.string s.name)),
    ("type", .scalar (.string s.kind.tag))] key :=
  Bindings.get?_ofList _ key

theorem member?_meta (s : Segment) :
    s.toJson.member? "meta" = some (.object (Document.mapFields Scalar.toJson s.attrs)) := by
  rw [member?_toJson]
  simp [lastWrite, List.lookup_cons]

theorem member?_name (s : Segment) :
    s.toJson.member? "name" = some (.scalar (.string s.name)) := by
  rw [member?_toJson]
  simp [lastWrite, List.lookup_cons]

theorem member?_type (s : Segment) :
    s.toJson.member? "type" = some (.scalar (.string s.kind.tag)) := by
  rw [member?_toJson]
  simp [lastWrite]

/-- **Segments with the same JSON form agree.** -/
theorem toJson_eq_iff {s t : Segment} : s.toJson = t.toJson ↔ s.Agrees t := by
  have hattrs : Document.mapFields Scalar.toJson s.attrs
      = Document.mapFields Scalar.toJson t.attrs ↔ s.finiteAttrs = t.finiteAttrs :=
    Document.mapFields_eq_iff Scalar.ofJson_toJson Scalar.toJson_finiteOrNull
  constructor
  · intro h
    have hmember := fun key => congrArg (Document.member? · key) h
    have hname := hmember "name"
    have hkind := hmember "type"
    have hmeta := hmember "meta"
    simp only [member?_name, member?_type, member?_meta, Option.some.injEq, Document.scalar.injEq,
      Json.Primitive.string.injEq, Document.object.injEq] at hname hkind hmeta
    exact ⟨hname, SegmentKind.tag_injective hkind, hattrs.mp hmeta⟩
  · rintro ⟨hname, hkind, h⟩
    rw [toJson, toJson, hname, hkind, hattrs.mpr h]

end Segment

/-! ## Roots -/

/-- The JSON form of a segment says that it is a root. -/
def Json.saysRoot (json : Json) : Bool :=
  (json.member? "meta").bind (Document.member? · Segment.rootKey) = some (.scalar (.boolean true))

/-- What the elements of the JSON form of a path say. -/
def Json.roots (json : Json) : List Bool := (json.items?.getD []).map saysRoot

/-- **The JSON form of a segment says whether it is a root.** -/
theorem Segment.saysRoot_toJson (s : Segment) : s.toJson.saysRoot = s.isRoot := by
  have hget : (Document.object (Document.mapFields Scalar.toJson s.attrs)).member? rootKey
      = (s.attrs.get? rootKey).map Value.toJson := Document.get?_mapFields _ _ _
  rw [Json.saysRoot, member?_meta, Option.bind_some, hget, isRoot]
  refine decide_eq_decide.mpr ?_
  rw [Option.map_eq_some_iff]
  simp only [Value.toJson_eq_boolean_iff, exists_eq_right]

/-! ## Paths -/

namespace Path

/-- **Paths with the same JSON form agree segment by segment.** -/
theorem toJson_eq_iff {p q : Path} : p.toJson = q.toJson ↔ List.Forall₂ Segment.Agrees p q := by
  rw [toJson, toJson, Document.array.injEq, ← forall₂_iff_map_eq]
  exact fun s _ t => Segment.toJson_eq_iff.symm

theorem roots_toJson (p : Path) : p.toJson.roots = p.map Segment.isRoot := by
  show (p.map Segment.toJson).map Json.saysRoot = _
  rw [List.map_map]
  exact List.map_congr_left fun s _ => s.saysRoot_toJson

/-- No attribute of a parsed segment is lost. -/
theorem finiteAttrs_of_mem_parse {text : String} {s : Segment} (h : s ∈ parse text) :
    s.finiteAttrs = s.attrs := by
  rw [parse, ofChars_eq_root_append] at h
  rcases List.mem_append.mp h with h | h
  · split at h
    · obtain rfl := List.mem_singleton.mp h
      rfl
    · cases h
  · rw [Segment.finiteAttrs, attrs_of_mem_body h]
    rfl

end Path

theorem Segment.Agrees.eq {s t : Segment} (h : s.Agrees t) (hs : s.finiteAttrs = s.attrs)
    (ht : t.finiteAttrs = t.attrs) : s = t := by
  have hattrs := h.attrs
  rw [hs, ht] at hattrs
  rcases s with ⟨name, kind, attrs⟩
  obtain rfl : name = t.name := h.name
  obtain rfl : kind = t.kind := h.kind
  obtain rfl : attrs = t.attrs := hattrs
  rfl

/-- Paths that lose nothing are the same when their segments agree. -/
theorem Path.eq_of_agrees {p q : Path} (h : List.Forall₂ Segment.Agrees p q)
    (hp : ∀ s ∈ p, s.finiteAttrs = s.attrs) (hq : ∀ t ∈ q, t.finiteAttrs = t.attrs) : p = q := by
  induction h with
  | nil => rfl
  | cons hagrees _ ih =>
    obtain ⟨hs, hp⟩ := List.forall_mem_cons.mp hp
    obtain ⟨ht, hq⟩ := List.forall_mem_cons.mp hq
    rw [hagrees.eq hs ht, ih hp hq]

/-- **The JSON form of a path tells all of it but floats that are not finite.** Paths have the same
form exactly when they are equally long and agree segment by segment on the name, on the kind and on
the attributes with null in the place of every such float. The form says which segments are roots,
and parsed paths with the same form are the same. -/
theorem Path.toJson_faithful :
    (∀ p q : Path, p.toJson = q.toJson ↔ List.Forall₂ Segment.Agrees p q) ∧
    (∀ p : Path, p.toJson.roots = p.map Segment.isRoot) ∧
    ∀ text other : String, (Path.parse text).toJson = (Path.parse other).toJson ↔
      Path.parse text = Path.parse other := by
  refine ⟨fun p q => Path.toJson_eq_iff, Path.roots_toJson, fun text other => ⟨fun h => ?_, ?_⟩⟩
  · exact Path.eq_of_agrees (Path.toJson_eq_iff.mp h) (fun _ => Path.finiteAttrs_of_mem_parse)
      fun _ => Path.finiteAttrs_of_mem_parse
  · intro h
    rw [h]

/-- An infinity reads like null. -/
example : (Segment.of "a" .literal |>.withAttr "name" (.ofBinary64 ⟨0x7ff0000000000000⟩)).toJson
    = (Segment.of "a" .literal |>.withAttr "name" .null).toJson := by decide

end PropertyPath
