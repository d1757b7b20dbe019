import Mathlib.Logic.Relation
import PropertyPath.Proofs.Simulation

/-!
# Fields that are not named

A segment that names a field reads that field and no other one of the object. So all other fields of
that object can be taken away, and values of the wrong shape can be emptied, before a path is
resolved: what it finds is the same, and where it fails it still fails for the same cause.

## Mechanism

`prune` takes away what is not read, along the path. No one relation holds between a value and its
pruned form at every segment, because what is read depends on the segments that are left. So the
induction is on the path: what is accessed in the pruned value is what is accessed in the value,
pruned by the rest of the path.

Two values with the same pruned form are not told apart by a success. An `Edit` changes fields that
are not named, anywhere that the path leads to, and keeps the pruned form.

* `related_prune` — a path ends alike on a value and on its pruned form
* `prune_eq_of_edit` — an edit keeps the pruned form
* `resolve_prune` — only the named fields matter
-/

namespace PropertyPath

/-- The same failure for the same reason, at whatever values. -/
def ResolveError.SameCause {σ : Type} (e e' : ResolveError σ) : Prop :=
  e.Related id (fun _ _ => True) e'

namespace Value

/-! ## Pruning -/

/-- Keeps one field of an object, changed by `f`. What is not an object becomes null. -/
def keepField (f : Value → Value) (name : String) : Value → Value
  | .object fields =>
    match fields.get? name with
    | some child => .single name (f child)
    | none => .object .nil
  | .scalar _ | .array _ => null

/-- Changes each element of an array by `f`. What is not an array becomes null. -/
def keepItems (f : Value → Value) : Value → Value
  | .array items => .array (items.map f)
  | .scalar _ | .object _ => null

/-- Takes away all that a path does not read. What it finds is kept whole. -/
def prune : Path → Value → Value
  | [], v => v
  | s :: rest, v =>
    match s.kind with
    | .literal => if s.hasName then v.keepField id s.name else v
    | .object =>
      if s.isRoot || !s.hasName then prune rest v else v.keepField (prune rest) s.name
    | .array =>
      if s.hasName then v.keepField (keepItems (prune rest)) s.name else v.keepItems (prune rest)

section Step

variable {s : Segment} (rest : Path) (v : Value)

theorem prune_verbatim (h : s.action = .verbatim) : prune (s :: rest) v = v := by
  obtain ⟨hkind, hname⟩ := Segment.action_eq_verbatim_iff.mp h
  simp [prune, hkind, hname]

theorem prune_leaf (h : s.action = .leaf) : prune (s :: rest) v = v.keepField id s.name := by
  obtain ⟨hkind, hname⟩ := Segment.action_eq_leaf_iff.mp h
  simp [prune, hkind, hname]

theorem prune_root (h : s.action = .root) : prune (s :: rest) v = prune rest v := by
  obtain ⟨hkind, hroot⟩ := Segment.action_eq_root_iff.mp h
  simp [prune, hkind, hroot]

theorem prune_descend (h : s.action = .descend) :
    prune (s :: rest) v = v.keepField (prune rest) s.name := by
  obtain ⟨hkind, hroot, hname⟩ := Segment.action_eq_descend_iff.mp h
  simp [prune, hkind, hroot, hname]

theorem prune_fanOut_named (h : s.action = .fanOut) (hname : s.hasName = true) :
    prune (s :: rest) v = v.keepField (keepItems (prune rest)) s.name := by
  simp [prune, Segment.action_eq_fanOut_iff.mp h, hname]

theorem prune_fanOut_unnamed (h : s.action = .fanOut) (hname : s.hasName = false) :
    prune (s :: rest) v = v.keepItems (prune rest) := by
  simp [prune, Segment.action_eq_fanOut_iff.mp h, hname]

end Step

/-! ## Access to pruned values -/

/-- Looking up the field that is kept gives the field, changed, or fails for the same cause. -/
theorem related_field_keepField (f : Value → Value) (name : String) (v : Value) :
    Attempt.Related id (fun _ _ => True) (fun child child' => f child = child')
      (v.field name) ((v.keepField f name).field name) := by
  cases v with
  | scalar s => exact .error (.mismatch trivial)
  | array items => exact .error (.mismatch trivial)
  | object fields =>
    cases h : fields.get? name with
    | none =>
      have hmissing : (Document.object fields).field name
          = .error (.missingField name (.object fields)) := by
        simp [Document.field, Document.fields?, h]
      rw [hmissing, keepField, h]
      exact .error (.missingField trivial)
    | some child =>
      have hfound : (Document.object fields).field name = .ok child :=
        Document.field_eq_ok_iff.mpr ⟨fields, rfl, h⟩
      rw [hfound, keepField, h]
      dsimp only
      rw [Document.field_single]
      exact .ok rfl

/-- Fanning out over the elements that are kept goes over the elements, changed. -/
theorem related_elements_keepItems (f : Value → Value) (v : Value) :
    Attempt.Related id (fun _ _ => True) (List.Forall₂ fun item item' => f item = item')
      v.elements (v.keepItems f).elements := by
  cases v with
  | scalar s => exact .error (.mismatch trivial)
  | object fields => exact .error (.mismatch trivial)
  | array items =>
    refine .ok ?_
    rw [List.forall₂_map_right_iff]
    exact List.forall₂_same.mpr fun item _ => rfl

theorem related_elements_prune {s : Segment} (h : s.action = .fanOut) (rest : Path) (v : Value) :
    Attempt.Related id (fun _ _ => True) (List.Forall₂ fun item item' => prune rest item = item')
      (s.elements v) (s.elements (prune (s :: rest) v)) := by
  cases hname : s.hasName with
  | true =>
    rw [prune_fanOut_named rest v h hname, Segment.elements_named hname,
      Segment.elements_named hname]
    refine (related_field_keepField (keepItems (prune rest)) s.name v).bind ?_
    rintro target _ rfl
    exact related_elements_keepItems (prune rest) target
  | false =>
    rw [prune_fanOut_unnamed rest v h hname, Segment.elements_unnamed hname,
      Segment.elements_unnamed hname]
    exact related_elements_keepItems (prune rest) v

/-- **A path ends alike on a value and on its pruned form.** -/
theorem related_prune (p : Path) : ∀ v : Value,
    Attempt.Related id (fun _ _ => True) Eq (v.resolve p) ((prune p v).resolve p) := by
  induction p with
  | nil =>
    intro v
    exact .ok rfl
  | cons s rest ih =>
    intro v
    cases h : s.action with
    | verbatim =>
      rw [prune_verbatim rest v h, Document.resolve_verbatim h]
      exact .ok rfl
    | leaf =>
      rw [prune_leaf rest v h, Document.resolve_leaf h, Document.resolve_leaf h]
      exact related_field_keepField id s.name v
    | root =>
      rw [prune_root rest v h, Document.resolve_root h, Document.resolve_root h]
      exact ih v
    | descend =>
      rw [prune_descend rest v h, Document.resolve_descend h, Document.resolve_descend h]
      refine (related_field_keepField (prune rest) s.name v).bind ?_
      rintro child _ rfl
      exact ih child
    | fanOut =>
      rw [Document.resolve_fanOut h, Document.resolve_fanOut h]
      -- the first failing element stays the first, as each element fails when its pruned form does
      refine (related_elements_prune h rest v).collect ?_ fun hfound => ?_
      · rintro item _ rfl
        exact ih item
      · rw [List.forall₂_eq_eq_eq] at hfound
        exact congrArg Document.array hfound

/-! ## Edits -/

/-- The segment looks a field up: it has a name and is no root. -/
def LooksUp (s : Segment) : Prop := s.hasName = true ∧ ¬ (s.kind = .object ∧ s.isRoot = true)

/-- A change of fields that a path does not name, in one object that one of its segments looks a
field up in. The object is the value itself, or stands below a field that the path enters or inside
an element of an array that it fans out over. -/
inductive Edit : Path → Value → Value → Prop where
  | here {s : Segment} {rest : Path} {fields fields' : Fields Value} (looksUp : LooksUp s)
      (same : fields'.get? s.name = fields.get? s.name) :
      Edit (s :: rest) (.object fields) (.object fields')
  | root {s : Segment} {rest : Path} {v w : Value} (action : s.action = .root)
      (below : Edit rest v w) : Edit (s :: rest) v w
  | descend {s : Segment} {rest : Path} {fields : Fields Value} {v w : Value}
      (action : s.action = .descend) (found : fields.get? s.name = some v)
      (below : Edit rest v w) : Edit (s :: rest) (.object fields) (.object (fields.set s.name w))
  | element {s : Segment} {rest : Path} {before after : List Value} {v w : Value}
      (action : s.action = .fanOut) (unnamed : s.hasName = false) (below : Edit rest v w) :
      Edit (s :: rest) (.array (before ++ v :: after)) (.array (before ++ w :: after))
  | fieldElement {s : Segment} {rest : Path} {fields : Fields Value} {before after : List Value}
      {v w : Value} (action : s.action = .fanOut) (named : s.hasName = true)
      (found : fields.get? s.name = some (.array (before ++ v :: after)))
      (below : Edit rest v w) :
      Edit (s :: rest) (.object fields)
        (.object (fields.set s.name (.array (before ++ w :: after))))

/-- A field that is kept does not depend on the other ones. -/
theorem keepField_congr (f : Value → Value) {name : String} {fields fields' : Fields Value}
    (h : (fields'.get? name).map f = (fields.get? name).map f) :
    keepField f name (.object fields') = keepField f name (.object fields) := by
  rw [keepField, keepField]
  cases hget : fields.get? name with
  | none =>
    rw [hget, Option.map_none, Option.map_eq_none_iff] at h
    rw [h]
  | some child =>
    rw [hget, Option.map_some, Option.map_eq_some_iff] at h
    obtain ⟨child', hchild', hf⟩ := h
    rw [hchild']
    exact congrArg (Document.single name) hf

theorem keepItems_congr (f : Value → Value) (before after : List Value) {v w : Value}
    (h : f w = f v) :
    keepItems f (.array (before ++ w :: after)) = keepItems f (.array (before ++ v :: after)) := by
  rw [keepItems, keepItems, List.map_append, List.map_append, List.map_cons, List.map_cons, h]

/-- **An edit keeps the pruned form.** -/
theorem prune_eq_of_edit {p : Path} {v w : Value} (h : Edit p v w) : prune p w = prune p v := by
  induction h with
  | @here s rest fields fields' looksUp same =>
    obtain ⟨hnamed, hnoRoot⟩ := looksUp
    -- each action that looks a field up keeps that field, and the other actions look none up
    have hfield : ∀ f, keepField f s.name (.object fields') = keepField f s.name (.object fields) :=
      fun f => keepField_congr f (by rw [same])
    cases h : s.action with
    | verbatim =>
      rw [(Segment.action_eq_verbatim_iff.mp h).2] at hnamed
      cases hnamed
    | leaf => rw [prune_leaf rest _ h, prune_leaf rest _ h, hfield]
    | root =>
      obtain ⟨hkind, hroot | hname⟩ := Segment.action_eq_root_iff.mp h
      · exact absurd ⟨hkind, hroot⟩ hnoRoot
      · rw [hname] at hnamed
        cases hnamed
    | descend => rw [prune_descend rest _ h, prune_descend rest _ h, hfield]
    | fanOut =>
      rw [prune_fanOut_named rest _ h hnamed, prune_fanOut_named rest _ h hnamed, hfield]
  | @root s rest v w action below ih => rw [prune_root rest _ action, prune_root rest _ action, ih]
  | @descend s rest fields v w action found below ih =>
    rw [prune_descend rest _ action, prune_descend rest _ action]
    refine keepField_congr _ ?_
    rw [Bindings.get?_set, if_pos rfl, found, Option.map_some, Option.map_some, ih]
  | @element s rest before after v w action unnamed below ih =>
    rw [prune_fanOut_unnamed rest _ action unnamed, prune_fanOut_unnamed rest _ action unnamed]
    exact keepItems_congr _ before after ih
  | @fieldElement s rest fields before after v w action named found below ih =>
    rw [prune_fanOut_named rest _ action named, prune_fanOut_named rest _ action named]
    refine keepField_congr _ ?_
    rw [Bindings.get?_set, if_pos rfl, found, Option.map_some, Option.map_some,
      keepItems_congr _ before after ih]

/-- So does any number of edits. -/
theorem prune_eq_of_edits {p : Path} {v w : Value} (h : Relation.ReflTransGen (Edit p) v w) :
    prune p w = prune p v := by
  induction h with
  | refl => rfl
  | tail _ hedit ih => rw [prune_eq_of_edit hedit, ih]

/-- A path succeeds on a value as it does on its pruned form. -/
theorem resolve_prune_eq_ok_iff (p : Path) (v u : Value) :
    (prune p v).resolve p = .ok u ↔ v.resolve p = .ok u := by
  obtain ⟨u', u'', hv, hpruned, rfl⟩ | ⟨e, e', hv, hpruned, -⟩ := (related_prune p v).ok_or_error
  · rw [hv, hpruned]
  · rw [hv, hpruned]
    exact ⟨nofun, nofun⟩

end Value

/-- **Only the named fields matter.** A path finds in a value what it finds in the pruned value, and
it fails on the one when it fails on the other, for the same cause. So it finds the same after any
number of changes to fields that it does not name, and fails after them only where it did before. -/
theorem resolve_prune (p : Path) (v : Value) :
    (∀ u, v.resolve p = .ok u ↔ (v.prune p).resolve p = .ok u) ∧
    (∀ e, v.resolve p = .error e → ∃ e', (v.prune p).resolve p = .error e' ∧ e.SameCause e') ∧
    (∀ e', (v.prune p).resolve p = .error e' → ∃ e, v.resolve p = .error e ∧ e.SameCause e') ∧
    ∀ w, Relation.ReflTransGen (Value.Edit p) v w →
      ∀ u, v.resolve p = .ok u ↔ w.resolve p = .ok u := by
  have hrelated := Value.related_prune p v
  refine ⟨fun u => (Value.resolve_prune_eq_ok_iff p v u).symm, fun e he => ?_, fun e' he' => ?_,
    fun w hw u => ?_⟩
  · rw [he] at hrelated
    exact hrelated.of_error_left
  · rw [he'] at hrelated
    exact hrelated.of_error_right
  · rw [← Value.resolve_prune_eq_ok_iff p v, ← Value.resolve_prune_eq_ok_iff p w,
      Value.prune_eq_of_edits hw]

/-- A field beside a list and a field beside each listed name are not asked for. Where the list is
no list, it is not one after pruning either. -/
theorem resolve_prune_listed_names :
    (Document.object (.ofList [
        ("note", Value.null),
        ("rows", .array [.object (.ofList [("name", Value.ofBool true), ("rank", Value.null)])])
      ])).resolve [.of "rows" .array, .of "name" .literal] = .ok (.array [Value.ofBool true]) ∧
    ∃ e', (Value.prune [.of "rows" .array, .of "name" .literal]
        (Document.single "rows" Value.null)).resolve [.of "rows" .array, .of "name" .literal]
          = .error e' ∧ ResolveError.SameCause (.mismatch .array Value.null) e' := by
  have htop : Value.Edit [.of "rows" .array, .of "name" .literal]
      (Document.single "rows" (.array [.single "name" (Value.ofBool true)]))
      (.object (.ofList [
        ("note", Value.null), ("rows", .array [.single "name" (Value.ofBool true)])])) :=
    .here ⟨rfl, by decide⟩ (by decide)
  have hrow : Value.Edit [.of "name" .literal] (.single "name" (Value.ofBool true))
      (.object (.ofList [("name", Value.ofBool true), ("rank", Value.null)])) :=
    .here ⟨rfl, by decide⟩ (by decide)
  have hinside : Value.Edit [.of "rows" .array, .of "name" .literal]
      (.object (.ofList [
        ("note", Value.null), ("rows", .array [.single "name" (Value.ofBool true)])]))
      (.object (.ofList [
        ("note", Value.null),
        ("rows", .array [.object (.ofList [("name", Value.ofBool true), ("rank", Value.null)])])
      ])) :=
    @Value.Edit.fieldElement (.of "rows" .array) _ _ [] [] _ _ rfl rfl rfl hrow
  exact ⟨((resolve_prune _ _).2.2.2 _ (.head htop (.single hinside)) _).mp (by decide),
    (resolve_prune _ _).2.1 _ rfl⟩

end PropertyPath
