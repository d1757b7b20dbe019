import PropertyPath.Document.Lemmas

/-!
# The scalars of a document

Replacing scalars acts on the leaves of a document and on nothing else. So what a replacement does
to a document is told by what it does to the scalars that occur there.

* `leaves_map` — the leaves of the result are the leaves, replaced
* `map_eq_map_iff` — replacements do the same to a document when they do to its leaves
* `equivBy_map_iff` — replaced documents are equal up to a relation when their leaves are

Each law of documents is proved together with the same law of lists and of bindings.
-/

namespace PropertyPath

namespace Document

variable {σ ρ υ : Type}

mutual

/-- The scalars of a document, from left to right. -/
def leaves : Document σ → List σ
  | scalar s => [s]
  | array items => leavesItems items
  | object fields => leavesFields fields

/-- The scalars of the elements of a list. -/
def leavesItems : List (Document σ) → List σ
  | [] => []
  | item :: rest => leaves item ++ leavesItems rest

/-- The scalars of the bindings of a chain. -/
def leavesFields {bound : Option String} : Bindings (Document σ) bound → List σ
  | .nil => []
  | .cons _ _ value rest => leaves value ++ leavesFields rest

end

/-! ## Leaves of a result -/

mutual

theorem leaves_map (f : σ → ρ) : (v : Document σ) → (v.map f).leaves = v.leaves.map f
  | scalar s => rfl
  | array items => by rw [map, leaves, leaves, leavesItems_mapItems f items]
  | object fields => by rw [map, leaves, leaves, leavesFields_mapFields f fields]

theorem leavesItems_mapItems (f : σ → ρ) :
    (items : List (Document σ)) → leavesItems (mapItems f items) = (leavesItems items).map f
  | [] => rfl
  | item :: rest => by
    rw [mapItems, leavesItems, leavesItems, List.map_append, leaves_map f item,
      leavesItems_mapItems f rest]

theorem leavesFields_mapFields (f : σ → ρ) {bound : Option String} :
    (fields : Bindings (Document σ) bound) →
      leavesFields (mapFields f fields) = (leavesFields fields).map f
  | .nil => rfl
  | .cons key above value rest => by
    rw [mapFields, leavesFields, leavesFields, List.map_append, leaves_map f value,
      leavesFields_mapFields f rest]

end

/-! ## Equal results -/

mutual

/-- **Replacements do the same to a document exactly when they do the same to its leaves.** -/
theorem map_eq_map_iff (f g : σ → ρ) :
    (v : Document σ) → (v.map f = v.map g ↔ ∀ s ∈ v.leaves, f s = g s)
  | scalar s => by simp [map, leaves]
  | array items => by
    rw [map, map, leaves, array.injEq]
    exact mapItems_eq_mapItems_iff f g items
  | object fields => by
    rw [map, map, leaves, object.injEq]
    exact mapFields_eq_mapFields_iff f g fields

theorem mapItems_eq_mapItems_iff (f g : σ → ρ) : (items : List (Document σ)) →
    (mapItems f items = mapItems g items ↔ ∀ s ∈ leavesItems items, f s = g s)
  | [] => by simp [mapItems, leavesItems]
  | item :: rest => by
    rw [mapItems, mapItems, leavesItems, List.cons.injEq, map_eq_map_iff f g item,
      mapItems_eq_mapItems_iff f g rest, List.forall_mem_append]

theorem mapFields_eq_mapFields_iff (f g : σ → ρ) {bound : Option String} :
    (fields : Bindings (Document σ) bound) →
      (mapFields f fields = mapFields g fields ↔ ∀ s ∈ leavesFields fields, f s = g s)
  | .nil => by simp [mapFields, leavesFields]
  | .cons key above value rest => by
    rw [mapFields, mapFields, leavesFields, List.forall_mem_append,
      ← map_eq_map_iff f g value, ← mapFields_eq_mapFields_iff f g rest]
    simp

end

/-- A replacement keeps a document exactly when it keeps its leaves. -/
theorem map_eq_self_iff (f : σ → σ) (v : Document σ) : v.map f = v ↔ ∀ s ∈ v.leaves, f s = s := by
  have h := map_eq_map_iff f id v
  rwa [map_id] at h

mutual

/-- **Replaced documents are equal up to a relation exactly when their leaves are.** -/
theorem equivBy_map_iff (same : ρ → υ → Bool) (f : σ → ρ) (g : σ → υ) : (v : Document σ) →
    (equivBy same (v.map f) (v.map g) = true ↔ ∀ s ∈ v.leaves, same (f s) (g s) = true)
  | scalar s => by simp [map, leaves, equivBy]
  | array items => by
    rw [map, map, leaves, equivBy]
    exact equivItems_mapItems_iff same f g items
  | object fields => by
    rw [map, map, leaves, equivBy]
    exact equivFields_mapFields_iff same f g fields

theorem equivItems_mapItems_iff (same : ρ → υ → Bool) (f : σ → ρ) (g : σ → υ) :
    (items : List (Document σ)) → (equivItems same (mapItems f items) (mapItems g items) = true ↔
      ∀ s ∈ leavesItems items, same (f s) (g s) = true)
  | [] => by simp [mapItems, leavesItems, equivItems]
  | item :: rest => by
    rw [mapItems, mapItems, leavesItems, equivItems, Bool.and_eq_true, List.forall_mem_append,
      equivBy_map_iff same f g item, equivItems_mapItems_iff same f g rest]

theorem equivFields_mapFields_iff (same : ρ → υ → Bool) (f : σ → ρ) (g : σ → υ)
    {bound : Option String} : (fields : Bindings (Document σ) bound) →
      (equivFields same (mapFields f fields) (mapFields g fields) = true ↔
        ∀ s ∈ leavesFields fields, same (f s) (g s) = true)
  | .nil => by simp [mapFields, leavesFields, equivFields]
  | .cons key above value rest => by
    rw [mapFields, mapFields, leavesFields, equivFields, beq_self_eq_true, Bool.true_and,
      Bool.and_eq_true, List.forall_mem_append, equivBy_map_iff same f g value,
      equivFields_mapFields_iff same f g rest]

end

end Document

end PropertyPath
