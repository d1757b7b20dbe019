import Mathlib.Logic.Equiv.Basic
import PropertyPath.Proofs.RelatedTraces

/-!
# Scalars are opaque and names are just names

Replace every scalar of a document by another one, and every key by another one, the same in the
path. What the path finds is then the same, replaced, and so is the reason why it fails. No scalar
and no name is treated in a way of its own, save that no field is named by the empty string.

## Mechanism

A renamed object holds its fields in another order, so it is not the old chain with other keys in
place. It is built key by key, and is known through its lookups: where no two keys are renamed
alike, a field is found under its new name exactly when it was found under the old one
(`get?_relabelFields`). With this a document and its renamed form are related as in `Simulation`.

* `resolve_relabel` — resolving and taking the steps, with scalars replaced and fields renamed
-/

namespace PropertyPath

variable {σ ρ : Type} {h : σ → ρ} {r : String → String}

namespace Document

/-! ## Replacing scalars and keys -/

mutual

/-- Replaces every scalar and every key of an object. -/
def relabel (h : σ → ρ) (r : String → String) : Document σ → Document ρ
  | scalar s => scalar (h s)
  | array items => array (relabelItems h r items)
  | object fields => object (relabelFields h r fields)

/-- Replaces every scalar and every key below the elements of a list. -/
def relabelItems (h : σ → ρ) (r : String → String) : List (Document σ) → List (Document ρ)
  | [] => []
  | item :: rest => relabel h r item :: relabelItems h r rest

/-- Replaces the keys of a chain, and every scalar and every key below its bindings. -/
def relabelFields (h : σ → ρ) (r : String → String) {bound : Option String} :
    Bindings (Document σ) bound → Fields (Document ρ)
  | .nil => .nil
  | .cons key _ value rest => (relabelFields h r rest).set (r key) (relabel h r value)

end

theorem relabelItems_eq_map (h : σ → ρ) (r : String → String) (items : List (Document σ)) :
    relabelItems h r items = items.map (relabel h r) := by
  induction items with
  | nil => rfl
  | cons item rest ih => rw [relabelItems, ih, List.map_cons]

/-- **A field is found under its new name.** -/
theorem get?_relabelFields (hr : Function.Injective r) (h : σ → ρ) {bound : Option String}
    (fields : Bindings (Document σ) bound) (name : String) :
    (relabelFields h r fields).get? (r name) = (fields.get? name).map (relabel h r) := by
  induction fields with
  | nil => rfl
  | cons key above value rest ih =>
    rw [relabelFields, Bindings.get?_set, Bindings.get?_cons, ih]
    by_cases hkey : name = key
    · rw [if_pos hkey, if_pos (congrArg r hkey), Option.map_some]
    · rw [if_neg hkey, if_neg (hr.ne hkey)]

@[simp] theorem shape_relabel (h : σ → ρ) (r : String → String) (v : Document σ) :
    (v.relabel h r).shape = v.shape := by
  cases v <;> rfl

end Document

/-- Replaces the name. -/
def Segment.rename (r : String → String) (s : Segment) : Segment := { s with name := r s.name }

/-- Replaces every scalar and every key of the offending value, and the name of a missing field. -/
def ResolveError.relabel (h : σ → ρ) (r : String → String) : ResolveError σ → ResolveError ρ
  | shapeMismatch expected actual value => shapeMismatch expected actual (value.relabel h r)
  | missingField field value => missingField (r field) (value.relabel h r)

/-- Replaces the name of the segment, and every scalar and every key of the value. -/
def Event.relabel (h : σ → ρ) (r : String → String) (e : Event σ) : Event ρ :=
  ⟨e.index, e.segment.map (Segment.rename r), e.step, e.value.relabel h r⟩

/-! ## Related by replacing -/

/-- A document is related to the one with its scalars and keys replaced. -/
theorem simulation_relabel (hr : Function.Injective r) (h : σ → ρ) :
    Simulation r fun (v : Document σ) w => v.relabel h r = w :=
  .of_map (Document.shape_relabel h r)
    (fun items => by rw [Document.relabel, Document.relabelItems_eq_map])
    fun fields => ⟨_, rfl, Document.get?_relabelFields hr h fields⟩

/-- A renamed segment acts alike, as no name is renamed to or from the empty one. -/
theorem Segment.actsAlike_rename (hr : Function.Injective r) (hempty : r "" = "") (s : Segment) :
    s.ActsAlike r (s.rename r) := by
  have hhasName : (s.rename r).hasName = s.hasName := by
    rw [Bool.eq_iff_iff, hasName_eq_true_iff, hasName_eq_true_iff]
    show r s.name ≠ "" ↔ s.name ≠ ""
    rw [← hempty, hr.ne_iff, hempty]
  have haction : (s.rename r).action = s.action := by
    rw [action, action, hhasName]
    rfl
  exact ⟨rfl, hhasName, haction⟩

theorem Path.forall₂_rename (r : String → String) (p : Path) :
    List.Forall₂ (fun s t => s.rename r = t) p (p.map (Segment.rename r)) := by
  rw [List.forall₂_map_right_iff]
  exact List.forall₂_same.mpr fun s _ => rfl

/-- Related steps are steps with scalars, keys and names replaced. -/
theorem Event.eq_relabel {e : Event σ} {e' : Event ρ}
    (hrelated : Event.Related (fun s t => s.rename r = t) (fun v w => v.relabel h r = w) e e') :
    e.relabel h r = e' := by
  obtain ⟨index, segment, step, value⟩ := e
  obtain ⟨index', segment', step', value'⟩ := e'
  obtain ⟨hindex, hsegment, hstep, hvalue⟩ := hrelated
  dsimp only at hindex hsegment hstep hvalue
  subst hindex hstep hvalue
  cases hsegment with
  | none => rfl
  | some hrename => rw [← hrename]; rfl

/-- The shape that was found is that of the value still. -/
theorem ResolveError.relabel_mismatch (h : σ → ρ) (r : String → String) (expected : Shape)
    (v : Document σ) : (mismatch expected v).relabel h r = mismatch expected (v.relabel h r) := by
  rw [mismatch, mismatch, relabel, Document.shape_relabel]

/-- Related failures are failures with scalars, keys and names replaced. -/
theorem ResolveError.eq_relabel {e : ResolveError σ} {e' : ResolveError ρ}
    (hrelated : e.Related r (fun v w => v.relabel h r = w) e') : e.relabel h r = e' := by
  cases hrelated with
  | mismatch value => rw [← value, relabel_mismatch]
  | missingField value => rw [← value]; rfl

theorem ResolveError.shape_value_relabel (h : σ → ρ) (r : String → String) (e : ResolveError σ) :
    (e.relabel h r).value.shape = e.value.shape := by
  cases e <;> exact Document.shape_relabel h r _

/-- **Scalars are opaque and names are just names.** Replace all scalars in any way, and all keys
and the names in the path in a way that renames no two alike and keeps the empty name. Then the path
finds what it found, replaced. It fails where it failed, for the same cause: with the same expected
and the same found shape, or for want of the field under its new name, and at the same value,
replaced. The steps are the same ones on the replaced values. -/
theorem resolve_relabel (h : σ → ρ) (hr : Function.Injective r) (hempty : r "" = "")
    (v : Document σ) (p : Path) :
    (∀ u, v.resolve p = .ok u →
      (v.relabel h r).resolve (p.map (Segment.rename r)) = .ok (u.relabel h r)) ∧
    (∀ expected actual w, v.resolve p = .error (.shapeMismatch expected actual w) →
      (v.relabel h r).resolve (p.map (Segment.rename r))
        = .error (.shapeMismatch expected actual (w.relabel h r))) ∧
    (∀ name w, v.resolve p = .error (.missingField name w) →
      (v.relabel h r).resolve (p.map (Segment.rename r))
        = .error (.missingField (r name) (w.relabel h r))) ∧
    (∀ e, v.resolve p = .error e →
      (v.relabel h r).resolve (p.map (Segment.rename r)) = .error (e.relabel h r) ∧
        (e.relabel h r).value.shape = e.value.shape) ∧
    (v.relabel h r).trace (p.map (Segment.rename r)) = (v.trace p).map (Event.relabel h r) := by
  have hsim := simulation_relabel hr h
  have halike : ∀ {s t : Segment}, s.rename r = t → s.ActsAlike r t := by
    rintro s _ rfl
    exact s.actsAlike_rename hr hempty
  have hresolve := hsim.resolve_alike halike (p.forall₂_rename r) (rfl : v.relabel h r = _)
  have herror : ∀ e, v.resolve p = .error e →
      (v.relabel h r).resolve (p.map (Segment.rename r)) = .error (e.relabel h r) := by
    intro e he
    rw [he] at hresolve
    obtain ⟨e', he', cause⟩ := hresolve.of_error_left
    rw [he', ResolveError.eq_relabel cause]
  refine ⟨fun u hu => ?_, fun expected actual w => herror _, fun name w => herror _,
    fun e he => ⟨herror e he, e.shape_value_relabel h r⟩, ?_⟩
  · rw [hu] at hresolve
    obtain ⟨u', hu', result⟩ := hresolve.of_ok_left
    rw [hu', result]
  · have htrace := hsim.trace halike (p.forall₂_rename r) (rfl : v.relabel h r = _)
    have hmap : List.Forall₂ (fun e e' => e.relabel h r = e') (v.trace p)
        ((v.relabel h r).trace (p.map (Segment.rename r))) :=
      htrace.imp fun _ _ => Event.eq_relabel
    rw [← List.forall₂_eq_eq_eq, List.forall₂_map_right_iff]
    exact hmap.flip.imp fun _ _ heq => heq.symm

/-- Swapping a name with the one that marks a root, and making all scalars true. -/
theorem resolve_relabel_swapped_root :
    Function.Injective (Equiv.swap "a" "root") ∧ Equiv.swap "a" "root" "" = "" ∧
    (Document.single "root" (.array [Value.ofBool true])).resolve [.of "root" .array]
      = .ok (.array [Value.ofBool true]) ∧
    (Document.single "root" (.array [Value.ofBool true])).trace [.of "root" .array]
      = [⟨0, some (.of "root" .array), .applied .fanOut,
          .single "root" (.array [Value.ofBool true])⟩,
        ⟨1, none, .ended, Value.ofBool true⟩] := by
  have hinjective : Function.Injective (Equiv.swap "a" "root") := Equiv.injective _
  have hswapped := resolve_relabel (fun _ => Scalar.boolean true) hinjective (by decide)
    (Document.single "a" (.array [Value.null])) [.of "a" .array]
  exact ⟨hinjective, by decide, hswapped.1 (.array [Value.null]) (by decide), hswapped.2.2.2.2⟩

end PropertyPath
