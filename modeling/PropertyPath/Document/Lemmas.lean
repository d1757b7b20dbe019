import PropertyPath.Document.Basic

/-!
# Laws of `Document.map`

* `map_id`, `map_map` — replacing scalars is functorial
* `get?_mapFields` — a field of the result is the field, replaced
* `mapItems_eq_map` — on lists it is the ordinary `map`

Each law of documents is proved together with the same law of lists and of bindings.
-/

namespace PropertyPath

namespace Document

variable {σ ρ υ : Type}

/-! ## Lists and bindings -/

theorem mapItems_eq_map (f : σ → ρ) (items : List (Document σ)) :
    mapItems f items = items.map (map f) := by
  induction items with
  | nil => rfl
  | cons item rest ih => rw [mapItems, ih, List.map_cons]

theorem get?_mapFields (f : σ → ρ) {bound : Option String} (fields : Bindings (Document σ) bound)
    (key : String) : (mapFields f fields).get? key = (fields.get? key).map (map f) := by
  induction fields with
  | nil => rfl
  | cons k above value rest ih =>
    rw [mapFields, Bindings.get?, Bindings.get?, ih]
    split <;> rfl

@[simp] theorem shape_map (f : σ → ρ) (v : Document σ) : (v.map f).shape = v.shape := by
  cases v <;> rfl

/-! ## Functor laws -/

mutual

/-- Replacing every scalar by itself changes nothing. -/
theorem map_id : (v : Document σ) → v.map id = v
  | scalar s => rfl
  | array items => by rw [map, mapItems_id items]
  | object fields => by rw [map, mapFields_id fields]

theorem mapItems_id : (items : List (Document σ)) → mapItems id items = items
  | [] => rfl
  | item :: rest => by rw [mapItems, map_id item, mapItems_id rest]

theorem mapFields_id {bound : Option String} :
    (fields : Bindings (Document σ) bound) → mapFields id fields = fields
  | .nil => rfl
  | .cons key above value rest => by rw [mapFields, map_id value, mapFields_id rest]

end

mutual

/-- **Two replacements in a row are one replacement.** -/
theorem map_map (g : ρ → υ) (f : σ → ρ) : (v : Document σ) → (v.map f).map g = v.map (g ∘ f)
  | scalar s => rfl
  | array items => by rw [map, map, map, mapItems_mapItems g f items]
  | object fields => by rw [map, map, map, mapFields_mapFields g f fields]

theorem mapItems_mapItems (g : ρ → υ) (f : σ → ρ) :
    (items : List (Document σ)) → mapItems g (mapItems f items) = mapItems (g ∘ f) items
  | [] => rfl
  | item :: rest => by
    rw [mapItems, mapItems, mapItems, map_map g f item, mapItems_mapItems g f rest]

theorem mapFields_mapFields (g : ρ → υ) (f : σ → ρ) {bound : Option String} :
    (fields : Bindings (Document σ) bound) →
      mapFields g (mapFields f fields) = mapFields (g ∘ f) fields
  | .nil => rfl
  | .cons key above value rest => by
    rw [mapFields, mapFields, mapFields, map_map g f value, mapFields_mapFields g f rest]

end

end Document

end PropertyPath
