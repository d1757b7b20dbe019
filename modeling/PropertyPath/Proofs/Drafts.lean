import PropertyPath.Document.Lemmas
import PropertyPath.Proofs.Collect
import PropertyPath.Proofs.Writes
import PropertyPath.Resolve.Error

/-!
# The order of writing and of iterating never shows

A draft is a value as it is made: an object is the list of writes that fill it, in order, and a key
may be written again. What is written of the value, as a JSON document, as text or in the message of
an error, tells nothing of that order; nor of the order in which the map of an object is iterated
when it is converted.

## Mechanism

Each notion below speaks of an object through the last writes to its keys only, and each is shown to
agree with the value that the draft builds.

* `Same` — two drafts leave the same behind, at every depth (`same_iff`)
* `Converts` — a JSON document that comes out when each map is iterated in some order
  (`converts_iff`)
* `Prints` — the text that lists each key once, in ascending order (`prints_iff`)

A segment is made by writing attributes. Its JSON document is that of a value, so that segments and
paths take part through drafts of their own (`SegmentDraft.toDraft`).
-/

namespace PropertyPath

variable {α β γ : Type}

/-! ## Relations that are functions -/

/-- Elements are related in order when the relation is equality of what two functions give. -/
theorem forall₂_iff_map_eq {R : α → β → Prop} {f : α → γ} {g : β → γ} {items : List α}
    (h : ∀ a ∈ items, ∀ b, R a b ↔ f a = g b) (others : List β) :
    List.Forall₂ R items others ↔ items.map f = others.map g := by
  induction items generalizing others with
  | nil => cases others <;> simp
  | cons a rest ih =>
    obtain ⟨ha, hrest⟩ := List.forall_mem_cons.mp h
    cases others with
    | nil => simp
    | cons b others =>
      rw [List.forall₂_cons, ha, ih hrest, List.map_cons, List.map_cons, List.cons.injEq]

/-- A function relates a list to its image. -/
theorem forall₂_iff_eq_map {R : α → β → Prop} {f : α → β} {items : List α}
    (h : ∀ a ∈ items, ∀ b, R a b ↔ f a = b) (found : List β) :
    List.Forall₂ R items found ↔ items.map f = found := by
  have hmap := forall₂_iff_map_eq (g := id) h found
  rwa [List.map_id] at hmap

theorem rel_iff_map_eq {R : α → β → Prop} {f : α → γ} {g : β → γ} {a : Option α}
    (h : ∀ x, a = some x → ∀ y, R x y ↔ f x = g y) (b : Option β) :
    Option.Rel R a b ↔ a.map f = b.map g := by
  constructor
  · rintro (hxy | _)
    · exact congrArg some ((h _ rfl _).mp hxy)
    · rfl
  · intro heq
    cases a with
    | none =>
      cases b with
      | none => exact .none
      | some y => cases heq
    | some x =>
      cases b with
      | none => cases heq
      | some y => exact .some ((h x rfl y).mpr (Option.some.inj heq))

/-! ## Text of arrays and objects -/

theorem Json.itemsChars_eq_map (items : List Json) : itemsChars items = items.map chars := by
  induction items with
  | nil => rfl
  | cons item rest ih => rw [itemsChars, ih, List.map_cons]

theorem Json.fieldsChars_eq_map {bound : Option String} (fields : Bindings Json bound) :
    fieldsChars fields
      = fields.toList.map fun entry => quoted entry.1 ++ ':' :: chars entry.2 := by
  induction fields with
  | nil => rfl
  | cons key above value rest ih => rw [fieldsChars, ih, Bindings.toList, List.map_cons]

/-! ## Drafts -/

/-- A value as it is made. An object is filled by writes, one after another. -/
inductive Draft where
  | scalar (value : Scalar)
  | array (items : List Draft)
  | object (writes : List (String × Draft))

namespace Draft

mutual

/-- The value that is made. -/
def build : Draft → Value
  | scalar s => .scalar s
  | array items => .array (buildItems items)
  | object writes => .object (.ofList (buildWrites writes))

/-- The values of the elements of an array. -/
def buildItems : List Draft → List Value
  | [] => []
  | item :: rest => build item :: buildItems rest

/-- The values that are written. -/
def buildWrites : List (String × Draft) → List (String × Value)
  | [] => []
  | (key, value) :: rest => (key, build value) :: buildWrites rest

end

@[simp] theorem build_scalar (s : Scalar) : (scalar s).build = .scalar s := rfl

@[simp] theorem build_array (items : List Draft) :
    (array items).build = .array (items.map build) := by
  have h : buildItems items = items.map build := by
    induction items with
    | nil => rfl
    | cons item rest ih => rw [buildItems, ih, List.map_cons]
  rw [build, h]

@[simp] theorem build_object (writes : List (String × Draft)) :
    (object writes).build = .object (.ofList (writes.map (Prod.map id build))) := by
  have h : buildWrites writes = writes.map (Prod.map id build) := by
    induction writes with
    | nil => rfl
    | cons write rest ih => rw [buildWrites, ih, List.map_cons, Prod.map, id]
  rw [build, h]

/-- Induction on drafts, with the hypothesis for all elements and for all writes. -/
theorem induction {motive : Draft → Prop} (scalar : ∀ s, motive (.scalar s))
    (array : ∀ items, (∀ item ∈ items, motive item) → motive (.array items))
    (object : ∀ writes, (∀ write ∈ writes, motive write.2) → motive (.object writes))
    (d : Draft) : motive d :=
  @Draft.rec motive (fun items => ∀ item ∈ items, motive item)
    (fun writes => ∀ write ∈ writes, motive write.2) (fun write => motive write.2)
    scalar array object
    (fun _ h => absurd h List.not_mem_nil)
    (fun _ _ hitem hrest => List.forall_mem_cons.mpr ⟨hitem, hrest⟩)
    (fun _ h => absurd h List.not_mem_nil)
    (fun _ _ hwrite hrest => List.forall_mem_cons.mpr ⟨hwrite, hrest⟩)
    (fun _ _ hvalue => hvalue) d

/-! ## The final maps -/

/-- The two leave the same behind: under every key the last writes are the same, or there are
none. -/
inductive Same : Draft → Draft → Prop where
  | scalar (s : Scalar) : Same (.scalar s) (.scalar s)
  | array {items others : List Draft} (h : List.Forall₂ Same items others) :
    Same (.array items) (.array others)
  | object {writes others : List (String × Draft)}
    (h : ∀ key, Option.Rel Same (lastWrite writes key) (lastWrite others key)) :
    Same (.object writes) (.object others)

/-- **The value that is made is what the last writes leave behind.** -/
theorem same_iff (d other : Draft) : d.Same other ↔ d.build = other.build := by
  induction d using Draft.induction generalizing other with
  | scalar s =>
    constructor
    · rintro ⟨⟩
      rfl
    · intro h
      cases other with
      | scalar t =>
        obtain rfl : s = t := Document.scalar.inj h
        exact .scalar s
      | array _ | object _ => simp at h
  | array items ih =>
    constructor
    · rintro ⟨⟩
      next others h =>
      rw [build_array, build_array, (forall₂_iff_map_eq ih others).mp h]
    · intro h
      cases other with
      | array others =>
        rw [build_array, build_array] at h
        exact .array ((forall₂_iff_map_eq ih others).mpr (Document.array.inj h))
      | scalar _ | object _ => simp at h
  | object writes ih =>
    -- what was written last is one of the writes, so the hypothesis is about it
    have hkeys : ∀ others, (∀ key, Option.Rel Same (lastWrite writes key) (lastWrite others key)) ↔
        (object writes).build = (object others).build := by
      intro others
      rw [build_object, build_object, Document.object.injEq, Bindings.ofList_eq_iff]
      refine forall_congr' fun key => ?_
      rw [lastWrite_map, lastWrite_map]
      exact rel_iff_map_eq (fun value h => ih _ (mem_of_lastWrite h)) _
    constructor
    · rintro ⟨⟩
      next others h => exact (hkeys others).mp h
    · intro h
      cases other with
      | object others => exact .object ((hkeys others).mpr h)
      | scalar _ | array _ => simp at h

/-! ## Conversion -/

/-- A JSON document that comes out when each map is iterated in some order, and what is met is
written to a new map. -/
inductive Converts : Draft → Json → Prop where
  | scalar (s : Scalar) : Converts (.scalar s) (.scalar s.toJson)
  | array {items : List Draft} {found : List Json} (h : List.Forall₂ Converts items found) :
    Converts (.array items) (.array found)
  | object {writes entries : List (String × Draft)} {found : List Json}
    (hentries : Lists entries writes)
    (h : List.Forall₂ Converts (entries.map Prod.snd) found) :
    Converts (.object writes) (.object (.ofList ((entries.map Prod.fst).zip found)))

/-- The JSON document of what a draft builds. -/
def toJson (d : Draft) : Json := d.build.toJson

theorem toJson_array (items : List Draft) : (array items).toJson = .array (items.map toJson) := by
  rw [toJson, build_array, Value.toJson, Document.map, Document.mapItems_eq_map, List.map_map]
  rfl

/-- The fields of an object are converted in any order. -/
theorem toJson_object {entries writes : List (String × Draft)} (h : Lists entries writes) :
    (object writes).toJson = .object (.ofList (entries.map (Prod.map id toJson))) := by
  rw [toJson, build_object, Value.toJson, Document.map, Document.object.injEq]
  refine Bindings.ext_get? fun key => ?_
  rw [Document.get?_mapFields, Bindings.get?_ofList, Bindings.get?_ofList, lastWrite_map,
    lastWrite_map, Bindings.ofList_eq_iff.mp h.ofList_eq, Option.map_map]
  rfl

/-- What is said of all writes is said of all entries. -/
theorem forall₂_entries_iff {R : Draft → β → Prop} {f : Draft → β}
    {entries writes : List (String × Draft)} (hentries : Lists entries writes)
    (h : ∀ write ∈ writes, ∀ b, R write.2 b ↔ f write.2 = b) (found : List β) :
    List.Forall₂ R (entries.map Prod.snd) found ↔ entries.map (fun entry => f entry.2) = found := by
  rw [List.forall₂_map_left_iff]
  exact forall₂_iff_eq_map (fun entry hmem => h entry (hentries.mem_writes entry hmem)) found

/-- **However the maps are iterated, one document comes out.** -/
theorem converts_iff (d : Draft) (json : Json) : d.Converts json ↔ d.toJson = json := by
  induction d using Draft.induction generalizing json with
  | scalar s =>
    constructor
    · rintro ⟨⟩
      rfl
    · rintro rfl
      exact .scalar s
  | array items ih =>
    rw [toJson_array]
    constructor
    · intro h
      cases h with
      | array h => rw [(forall₂_iff_eq_map ih _).mp h]
    · rintro rfl
      exact .array ((forall₂_iff_eq_map ih _).mpr rfl)
  | object writes ih =>
    constructor
    · intro h
      cases h with
      | object hentries h =>
        obtain rfl := (forall₂_entries_iff hentries ih _).mp h
        rw [toJson_object hentries, List.zip_map']
        rfl
    · rintro rfl
      -- one order in which the map can be iterated is that of its keys
      have hentries := lists_toList writes
      have h := Converts.object hentries ((forall₂_entries_iff hentries ih _).mpr rfl)
      rw [List.zip_map'] at h
      rw [toJson_object hentries]
      exact h

/-! ## Text -/

/-- A text that lists, for each object, every key once, in ascending order, with what was written to
it last. -/
inductive Prints : Draft → List Char → Prop where
  | scalar (s : Scalar) : Prints (.scalar s) s.toJson.chars
  | array {items : List Draft} {texts : List (List Char)} (h : List.Forall₂ Prints items texts) :
    Prints (.array items) ('[' :: ([','].intercalate texts ++ [']']))
  | object {writes entries : List (String × Draft)} {texts : List (List Char)}
    (hentries : Lists entries writes) (ascending : (entries.map Prod.fst).Pairwise (· < ·))
    (h : List.Forall₂ Prints (entries.map Prod.snd) texts) :
    Prints (.object writes) ('{' :: ([','].intercalate
      (List.zipWith (fun key text => Json.quoted key ++ ':' :: text) (entries.map Prod.fst) texts)
      ++ ['}']))

/-- The text of what a draft builds. -/
def chars (d : Draft) : List Char := Json.chars d.toJson

theorem chars_array (items : List Draft) :
    (array items).chars = '[' :: ([','].intercalate (items.map chars) ++ [']']) := by
  rw [chars, toJson_array, Json.chars, Json.itemsChars_eq_map, List.map_map]
  rfl

theorem chars_object {entries writes : List (String × Draft)} (h : Lists entries writes)
    (ascending : (entries.map Prod.fst).Pairwise (· < ·)) :
    (object writes).chars = '{' :: ([','].intercalate
      (entries.map fun entry => Json.quoted entry.1 ++ ':' :: entry.2.chars) ++ ['}']) := by
  have hkeys : ((entries.map (Prod.map id toJson)).map Prod.fst).Pairwise (· < ·) := by
    rw [List.map_map]
    exact ascending
  rw [chars, toJson_object h, Json.chars, Json.fieldsChars_eq_map, Bindings.toList_ofList hkeys,
    List.map_map]
  rfl

/-- **The text of a value is the one that lists the last writes in ascending order.** -/
theorem prints_iff (d : Draft) (text : List Char) : d.Prints text ↔ d.chars = text := by
  induction d using Draft.induction generalizing text with
  | scalar s =>
    constructor
    · rintro ⟨⟩
      rfl
    · rintro rfl
      exact .scalar s
  | array items ih =>
    rw [chars_array]
    constructor
    · intro h
      cases h with
      | array h => rw [(forall₂_iff_eq_map ih _).mp h]
    · rintro rfl
      exact .array ((forall₂_iff_eq_map ih _).mpr rfl)
  | object writes ih =>
    constructor
    · intro h
      cases h with
      | object hentries ascending h =>
        obtain rfl := (forall₂_entries_iff hentries ih _).mp h
        rw [chars_object hentries ascending, List.zipWith_map, List.zipWith_self]
    · rintro rfl
      have hentries := lists_toList writes
      have ascending := Bindings.keys_ascending (Bindings.ofList writes)
      have h := Prints.object hentries ascending ((forall₂_entries_iff hentries ih _).mpr rfl)
      rw [List.zipWith_map, List.zipWith_self] at h
      rw [chars_object hentries ascending]
      exact h

end Draft

/-! ## Segments -/

/-- A segment as it is made: from scratch or as a root, and then by writing attributes. -/
inductive SegmentDraft where
  | of (name : String) (kind : SegmentKind) (writes : List (String × Draft))
  | root (writes : List (String × Draft))

namespace SegmentDraft

/-- Writes attributes, one after another. -/
def withAttrs (s : Segment) (writes : List (String × Draft)) : Segment :=
  writes.foldl (fun s write => s.withAttr write.1 write.2.build) s

/-- The segment that is made. -/
def build : SegmentDraft → Segment
  | of name kind writes => withAttrs (.of name kind) writes
  | root writes => withAttrs .root writes

/-- The name of the segment. -/
def name : SegmentDraft → String
  | of name _ _ => name
  | root _ => ""

/-- The kind of the segment. -/
def kind : SegmentDraft → SegmentKind
  | of _ kind _ => kind
  | root _ => .object

/-- All writes of attributes. A root begins with one of its own. -/
def writes : SegmentDraft → List (String × Draft)
  | of _ _ writes => writes
  | root writes => (Segment.rootKey, .scalar (.boolean true)) :: writes

/-- The two have one name and one kind, and leave the same attributes behind. -/
structure Same (s t : SegmentDraft) : Prop where
  name : s.name = t.name
  kind : s.kind = t.kind
  attrs : (Draft.object s.writes).Same (.object t.writes)

/-- What the JSON document of the segment is made from. -/
def toDraft (s : SegmentDraft) : Draft :=
  .object [("meta", .object s.writes), ("name", .scalar (.string s.name)),
    ("type", .scalar (.string s.kind.tag))]

theorem withAttrs_eq (s : Segment) (writes : List (String × Draft)) :
    withAttrs s writes = ⟨s.name, s.kind, (writes.map (Prod.map id Draft.build)).foldl
      (fun fields write => fields.set write.1 write.2) s.attrs⟩ := by
  induction writes generalizing s with
  | nil => rfl
  | cons write rest ih =>
    rw [withAttrs, List.foldl_cons]
    exact ih _

/-- The attributes are what the writes leave behind. -/
theorem build_eq (s : SegmentDraft) :
    s.build = ⟨s.name, s.kind, .ofList (s.writes.map (Prod.map id Draft.build))⟩ := by
  cases s with
  | of name kind writes => exact withAttrs_eq _ _
  | root writes => exact withAttrs_eq _ _

theorem Same.build_eq {s t : SegmentDraft} (h : s.Same t) : s.build = t.build := by
  have hattrs := (Draft.same_iff _ _).mp h.attrs
  rw [Draft.build_object, Draft.build_object, Document.object.injEq] at hattrs
  rw [SegmentDraft.build_eq, SegmentDraft.build_eq, h.name, h.kind, hattrs]

/-- The JSON document of a segment is that of a value. -/
theorem toJson_toDraft (s : SegmentDraft) : s.toDraft.toJson = s.build.toJson := by
  have hattrs : (Draft.object s.writes).toJson = .object (Document.mapFields Scalar.toJson
      (.ofList (s.writes.map (Prod.map id Draft.build)))) := by
    rw [Draft.toJson, Draft.build_object]
    rfl
  have hkeys : ∀ a b c : Draft, (List.map Prod.fst [("meta", a), ("name", b), ("type", c)]).Nodup :=
    fun _ _ _ => (by decide : ["meta", "name", "type"].Nodup)
  rw [build_eq, Segment.toJson, ← hattrs, toDraft, Draft.toJson_object (.refl (hkeys _ _ _))]
  rfl

/-- The JSON document of a path is that of a value. -/
theorem toJson_toDraft_path (p : List SegmentDraft) :
    (Draft.array (p.map toDraft)).toJson = Path.toJson (p.map build) := by
  rw [Draft.toJson_array, Path.toJson, List.map_map, List.map_map]
  exact congrArg Document.array (List.map_congr_left fun s _ => toJson_toDraft s)

/-- **A segment is a root when the last write to the root attribute says so.** -/
theorem isRoot_build_iff (s : SegmentDraft) : s.build.isRoot = true ↔
    lastWrite s.writes Segment.rootKey = some (.scalar (.boolean true)) := by
  have hvalue : ∀ d : Draft, d.build = Value.ofBool true ↔ d = .scalar (.boolean true) := by
    intro d
    cases d with
    | scalar s => simp [Value.ofBool]
    | array _ | object _ => simp [Value.ofBool]
  rw [build_eq, Segment.isRoot, decide_eq_true_iff, Bindings.get?_ofList, lastWrite_map,
    Option.map_eq_some_iff]
  simp only [hvalue, exists_eq_right]

end SegmentDraft

/-! ## What is written -/

/-- Whatever order the maps of the draft are iterated in, the document comes out; and its text lists
the last writes in key order. -/
structure Draft.Renders (d : Draft) (json : Json) : Prop where
  converts_iff : ∀ other, d.Converts other ↔ other = json
  prints_iff : ∀ text, d.Prints text ↔ text = json.text.toList

theorem Draft.renders_toJson (d : Draft) : d.Renders d.toJson where
  converts_iff other := by rw [d.converts_iff, eq_comm]
  prints_iff text := by rw [d.prints_iff, eq_comm, Json.text, String.toList_ofList, chars]

/-- The messages of the errors that carry the value that is made end in the text of the document,
whatever order the maps are iterated in. -/
structure Draft.Reported (d : Draft) : Prop where
  missingField : ∀ json, d.Converts json → ∀ field,
    (ResolveError.missingField field d.build).message
      = s!"Missing field: expected object with field '{field}', got: {json.text}"
  shapeMismatch : ∀ json, d.Converts json → ∀ expected actual,
    (ResolveError.shapeMismatch expected actual d.build).message
      = s!"Shape mismatch: expected {expected.name}, got {d.build.typeName} with value: {json.text}"

theorem Draft.reported (d : Draft) : d.Reported where
  missingField json h field := by
    obtain rfl := (d.converts_iff json).mp h
    rfl
  shapeMismatch json h expected actual := by
    obtain rfl := (d.converts_iff json).mp h
    rfl

/-- What is written of two values is the same. -/
structure Draft.Alike (d other : Draft) : Prop where
  json : Value.toJson d.build = Value.toJson other.build
  text : Value.text d.build = Value.text other.build
  missingField : ∀ field, (ResolveError.missingField field d.build).message
    = (ResolveError.missingField field other.build).message
  shapeMismatch : ∀ expected actual, (ResolveError.shapeMismatch expected actual d.build).message
    = (ResolveError.shapeMismatch expected actual other.build).message

theorem Draft.Same.alike {d other : Draft} (h : d.Same other) : d.Alike other := by
  have hbuild := (d.same_iff other).mp h
  constructor <;> simp only [hbuild, implies_true]

/-- **The order of writing and of iterating never shows.** A value has one JSON document, one text,
which lists the last writes in key order, and the messages that tell it end in this text; values
with the same last writes have all of these in common. So it is with segments and with paths. And a
segment is a root when the last write to the root attribute says so. -/
theorem order_never_shows :
    (∀ d : Draft, d.Renders (Value.toJson d.build) ∧ d.Reported ∧
      ∀ other, d.Same other → d.Alike other) ∧
    (∀ s : SegmentDraft, s.toDraft.Renders s.build.toJson ∧
      (s.build.isRoot = true ↔
        lastWrite s.writes Segment.rootKey = some (.scalar (.boolean true))) ∧
      ∀ other, s.Same other → s.build.toJson = other.build.toJson) ∧
    ∀ p : List SegmentDraft,
      (Draft.array (p.map SegmentDraft.toDraft)).Renders (Path.toJson (p.map SegmentDraft.build)) ∧
      ∀ q, List.Forall₂ SegmentDraft.Same p q →
        Path.toJson (p.map SegmentDraft.build) = Path.toJson (q.map SegmentDraft.build) := by
  refine ⟨fun d => ⟨d.renders_toJson, d.reported, fun _ h => h.alike⟩, fun s => ⟨?_, ?_, ?_⟩,
    fun p => ⟨?_, ?_⟩⟩
  · rw [← s.toJson_toDraft]
    exact Draft.renders_toJson _
  · exact s.isRoot_build_iff
  · intro other h
    rw [h.build_eq]
  · rw [← SegmentDraft.toJson_toDraft_path]
    exact Draft.renders_toJson _
  · intro q h
    have hbuild : p.map SegmentDraft.build = q.map SegmentDraft.build := by
      induction h with
      | nil => rfl
      | cons hs _ ih => rw [List.map_cons, List.map_cons, hs.build_eq, ih]
    rw [hbuild]

example : Value.text (Draft.object [("b", .scalar .null), ("a", .scalar (.boolean true)),
    ("b", .scalar (.string "c"))]).build = "\x7b\"a\":true,\"b\":\"c\"\x7d" := by decide

end PropertyPath
