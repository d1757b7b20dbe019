import PropertyPath.Document.Lemmas
import PropertyPath.Proofs.Outcome

/-!
# Nested arrays

A path turns a document into arrays inside arrays, as deep as it has fan-outs. `elementsAt` reads
the elements at a depth from left to right, and `traverseAt` puts others in their place. A traversal
may fail, and then does so as the first element that fails.

* `traverseAt_map`, `map_traverseAt` — scalars are replaced before or after a traversal, or in it
* `resolve_nested` — results are nested as deep as the path has fan-outs
* `traverseAt_eq_error_iff` — a traversal fails as the first element that fails
-/

namespace PropertyPath

variable {σ ρ ε : Type}

namespace Document

/-! ## Elements at a depth -/

/-- An array of arrays, as deep as this. -/
def Nested : Nat → Document σ → Prop
  | 0, _ => True
  | depth + 1, array items => ∀ item ∈ items, Nested depth item
  | _ + 1, scalar _ | _ + 1, object _ => False

/-- The elements at a depth inside nested arrays, from left to right. What is not an array stands
for itself at any depth. -/
def elementsAt : Nat → Document σ → List (Document σ)
  | 0, v => [v]
  | depth + 1, array items => items.flatMap (elementsAt depth)
  | _ + 1, scalar s => [scalar s]
  | _ + 1, object fields => [object fields]

/-- Puts other documents in the place of the elements at a depth inside nested arrays, from left to
right. The first failure is the outcome. -/
def traverseAt (f : Document σ → Except ε (Document ρ)) : Nat → Document σ → Except ε (Document ρ)
  | 0, v => f v
  | depth + 1, array items => do
    let found ← items.mapM (traverseAt f depth)
    return array found
  | _ + 1, scalar s => f (scalar s)
  | _ + 1, object fields => f (object fields)

theorem traverseAt_array (f : Document σ → Except ε (Document ρ)) (depth : Nat)
    (items : List (Document σ)) : traverseAt f (depth + 1) (array items)
      = items.mapM (traverseAt f depth) >>= fun found => .ok (array found) := rfl

/-! ## Replaced scalars -/

/-- Replacing scalars keeps all arrays. -/
theorem nested_map_iff (g : σ → ρ) (depth : Nat) : ∀ u : Document σ,
    (u.map g).Nested depth ↔ u.Nested depth := by
  induction depth with
  | zero => exact fun _ => Iff.rfl
  | succ depth ih =>
    intro u
    cases u with
    | array items => simp only [map, mapItems_eq_map, Nested, List.forall_mem_map, ih]
    | scalar s => exact Iff.rfl
    | object fields => exact Iff.rfl

/-- Replacing scalars before a traversal is replacing them in each element. -/
theorem traverseAt_map {υ : Type} (g : σ → ρ) (f : Document ρ → Except ε (Document υ))
    (depth : Nat) : ∀ u : Document σ,
      (u.map g).traverseAt f depth = u.traverseAt (fun x => f (x.map g)) depth := by
  induction depth with
  | zero => intro u; rfl
  | succ depth ih =>
    intro u
    cases u with
    | array items =>
      rw [map, mapItems_eq_map, traverseAt_array, traverseAt_array, List.mapM_map]
      exact congrArg (fun h => items.mapM h >>= _) (funext ih)
    | scalar s => rfl
    | object fields => rfl

/-- Replacing scalars after a traversal is replacing them in each result. -/
theorem map_traverseAt {υ : Type} (g : ρ → υ) (f : Document σ → Except ε (Document ρ))
    (depth : Nat) : ∀ u : Document σ,
      (u.traverseAt f depth).map (map g) = u.traverseAt (fun x => (f x).map (map g)) depth := by
  induction depth with
  | zero => intro u; rfl
  | succ depth ih =>
    intro u
    cases u with
    | array items =>
      rw [traverseAt_array, traverseAt_array, ← funext ih, ← map_mapM]
      cases items.mapM (traverseAt f depth) with
      | error e => rfl
      | ok found => simp [bind, Except.bind, Except.map, map, mapItems_eq_map]
    | scalar s => rfl
    | object fields => rfl

/-! ## The first failure -/

/-- **A traversal fails as the first element that fails.** -/
theorem traverseAt_eq_error_iff (f : Document σ → Except ε (Document ρ)) (depth : Nat) :
    ∀ (u : Document σ) (e : ε), traverseAt f depth u = .error e ↔
      ∃ before x after, u.elementsAt depth = before ++ x :: after ∧
        (∀ y ∈ before, ∃ z, f y = .ok z) ∧ f x = .error e := by
  have hmapM : ∀ (u : Document σ) (e : ε),
      traverseAt f depth u = .error e ↔ (u.elementsAt depth).mapM f = .error e := by
    induction depth with
    | zero =>
      intro u e
      rw [elementsAt, traverseAt, mapM_singleton_eq_error_iff]
    | succ depth ih =>
      intro u e
      cases u with
      | array items =>
        rw [traverseAt_array, elementsAt, bind_eq_error_iff]
        simp only [reduceCtorEq, and_false, exists_false, or_false]
        exact mapM_flatMap_eq_error_iff ih items e
      | scalar s => rw [elementsAt, traverseAt, mapM_singleton_eq_error_iff]
      | object fields => rw [elementsAt, traverseAt, mapM_singleton_eq_error_iff]
  intro u e
  rw [hmapM]
  simp only [mapM_eq_error_iff, exists_mapM_eq_ok_iff]

/-! ## Results -/

/-- The result of a path is nested as deep as the path has fan-outs. -/
theorem resolve_nested (p : Path) : ∀ v w : Document σ, v.resolve p = .ok w →
    w.Nested p.fanOuts := by
  induction p with
  | nil => intro v w _; exact trivial
  | cons s rest ih =>
    intro v w hw
    rcases resolve_cons_eq_ok_iff.mp hw with
      ⟨h, _⟩ | ⟨h, _⟩ | ⟨h, hw⟩ | ⟨h, child, _, hw⟩ | ⟨h, items, found, _, rfl, hfound⟩
    · rw [Path.fanOuts_literal (Segment.action_eq_verbatim_iff.mp h).1]; trivial
    · rw [Path.fanOuts_literal (Segment.action_eq_leaf_iff.mp h).1]; trivial
    · rw [Path.fanOuts_object (Segment.action_eq_root_iff.mp h).1]; exact ih v w hw
    · rw [Path.fanOuts_object (Segment.action_eq_descend_iff.mp h).1]; exact ih child w hw
    · rw [Path.fanOuts_array (Segment.action_eq_fanOut_iff.mp h)]
      intro b hb
      obtain ⟨i, hi, rfl⟩ := List.getElem_of_mem hb
      exact ih _ _ (hfound.get (hfound.length_eq ▸ hi) hi)

end Document

end PropertyPath
