import PropertyPath.Document.Lemmas
import PropertyPath.Proofs.Lookups

/-!
# Related documents resolve alike

Resolving asks a document for its fields and its elements, and puts results together in arrays. It
does nothing else with it, and in particular it never looks into a scalar. So any relation between
documents that these three respect is respected by resolving as a whole: related documents have
related results, or fail in the same way at related values. The names of fields may be other ones on
the other side, as long as the path names them by the other ones too.

* `Simulation.run` — related documents run alike
* `resolve_map` — replacing all scalars and resolving can change places
-/

namespace PropertyPath

variable {σ ρ α β γ δ : Type} {names : String → String} {R : Document σ → Document ρ → Prop}

/-! ## Related outcomes -/

/-- The same failure, up to names, at related values. Each side tells the shape of its own value. -/
inductive ResolveError.Related (names : String → String) (R : Document σ → Document ρ → Prop) :
    ResolveError σ → ResolveError ρ → Prop where
  | mismatch {expected : Shape} {v : Document σ} {w : Document ρ} (value : R v w) :
      Related names R (.mismatch expected v) (.mismatch expected w)
  | missingField {field : String} {v : Document σ} {w : Document ρ} (value : R v w) :
      Related names R (.missingField field v) (.missingField (names field) w)

/-- Related results, or related failures. -/
inductive Attempt.Related (names : String → String) (R : Document σ → Document ρ → Prop)
    (S : α → β → Prop) : Attempt σ α → Attempt ρ β → Prop where
  | ok {a : α} {b : β} (result : S a b) : Related names R S (.ok a) (.ok b)
  | error {e : ResolveError σ} {e' : ResolveError ρ} (cause : e.Related names R e') :
      Related names R S (.error e) (.error e')

namespace Attempt.Related

variable {S : α → β → Prop} {T : γ → δ → Prop}

/-- Of two related attempts both succeed or both fail. -/
theorem ok_or_error {x : Attempt σ α} {y : Attempt ρ β} (h : Attempt.Related names R S x y) :
    (∃ a b, x = .ok a ∧ y = .ok b ∧ S a b) ∨
      ∃ e e', x = .error e ∧ y = .error e' ∧ e.Related names R e' := by
  cases h with
  | ok result => exact .inl ⟨_, _, rfl, rfl, result⟩
  | error cause => exact .inr ⟨_, _, rfl, rfl, cause⟩

theorem of_ok_left {a : α} {y : Attempt ρ β} (h : Attempt.Related names R S (.ok a) y) :
    ∃ b, y = .ok b ∧ S a b := by
  cases h with
  | ok result => exact ⟨_, rfl, result⟩

theorem of_error_left {e : ResolveError σ} {y : Attempt ρ β}
    (h : Attempt.Related names R S (.error e) y) :
    ∃ e', y = .error e' ∧ e.Related names R e' := by
  cases h with
  | error cause => exact ⟨_, rfl, cause⟩

theorem of_error_right {e' : ResolveError ρ} {x : Attempt σ α}
    (h : Attempt.Related names R S x (.error e')) :
    ∃ e, x = .error e ∧ e.Related names R e' := by
  cases h with
  | error cause => exact ⟨_, rfl, cause⟩

/-- Related attempts that are continued alike stay related. -/
theorem bind {x : Attempt σ α} {y : Attempt ρ β} {f : α → Attempt σ γ} {g : β → Attempt ρ δ}
    (hxy : Attempt.Related names R S x y)
    (hfg : ∀ a b, S a b → Attempt.Related names R T (f a) (g b)) :
    Attempt.Related names R T (x >>= f) (y >>= g) := by
  cases hxy with
  | ok result => exact hfg _ _ result
  | error cause => exact .error cause

/-- Results are collected alike from related lists. -/
theorem mapM {f : α → Attempt σ γ} {g : β → Attempt ρ δ}
    (hfg : ∀ a b, S a b → Attempt.Related names R T (f a) (g b)) {as : List α} {bs : List β}
    (h : List.Forall₂ S as bs) :
    Attempt.Related names R (List.Forall₂ T) (as.mapM f) (bs.mapM g) := by
  induction h with
  | nil => exact .ok .nil
  | cons hab _ ih =>
    rw [List.mapM_cons, List.mapM_cons]
    exact (hfg _ _ hab).bind fun c d hcd => ih.bind fun cs ds hcds => .ok (.cons hcd hcds)

/-- Fanning out over related elements collects related arrays. -/
theorem collect {T : Document σ → Document ρ → Prop} {x : Attempt σ (List α)}
    {y : Attempt ρ (List β)} {f : α → Attempt σ (Document σ)} {g : β → Attempt ρ (Document ρ)}
    (hxy : Attempt.Related names R (List.Forall₂ S) x y)
    (hfg : ∀ a b, S a b → Attempt.Related names R T (f a) (g b))
    (array : ∀ {found others}, List.Forall₂ T found others → T (.array found) (.array others)) :
    Attempt.Related names R T
      (x >>= fun items => items.mapM f >>= fun found => .ok (.array found))
      (y >>= fun items => items.mapM g >>= fun found => .ok (.array found)) :=
  hxy.bind fun _ _ hitems => (mapM hfg hitems).bind fun _ _ hfound => .ok (array hfound)

end Attempt.Related

/-! ## Simulations -/

/-- A relation that fields, elements and arrays respect. -/
structure Simulation (names : String → String) (R : Document σ → Document ρ → Prop) : Prop where
  field : ∀ {v w}, R v w → ∀ name,
    Attempt.Related names R R (v.field name) (w.field (names name))
  elements : ∀ {v w}, R v w →
    Attempt.Related names R (List.Forall₂ R) v.elements w.elements
  array : ∀ {items others}, List.Forall₂ R items others → R (.array items) (.array others)

/-- Renames the field that an instruction looks up. -/
def Lookup.rename (f : String → String) : Lookup → Lookup
  | field name => field (f name)
  | each => each

/-- **Related documents run alike.** -/
theorem Simulation.run (h : Simulation names R) (program : List Lookup) :
    ∀ {v : Document σ} {w : Document ρ}, R v w →
      Attempt.Related names R R (Lookup.run program v)
        (Lookup.run (program.map (Lookup.rename names)) w) := by
  induction program with
  | nil =>
    intro v w hvw
    exact .ok hvw
  | cons i rest ih =>
    intro v w hvw
    cases i with
    | field name =>
      rw [List.map_cons, Lookup.rename, Lookup.run_field, Lookup.run_field]
      exact (h.field hvw name).bind fun child child' hchild => ih hchild
    | each =>
      rw [List.map_cons, Lookup.rename, Lookup.run_each, Lookup.run_each]
      exact (h.elements hvw).collect (fun item other hitem => ih hitem) h.array

theorem Lookup.map_rename_id (program : List Lookup) :
    program.map (Lookup.rename id) = program := by
  have hid : Lookup.rename id = id := by
    funext i
    cases i <;> rfl
  rw [hid, List.map_id]

/-- Related documents resolve alike on the same path, when names stay as they are. -/
theorem Simulation.resolve {R : Document σ → Document ρ → Prop} (h : Simulation id R) (p : Path)
    {v : Document σ} {w : Document ρ} (hvw : R v w) :
    Attempt.Related id R R (v.resolve p) (w.resolve p) := by
  have hrun := h.run p.lookups hvw
  rwa [Lookup.map_rename_id, ← resolve_eq_run, ← resolve_eq_run] at hrun

/-- A function on documents that keeps shapes and goes through arrays and objects relates each
document to its image. -/
theorem Simulation.of_map {f : Document σ → Document ρ} (shape : ∀ v, (f v).shape = v.shape)
    (array : ∀ items, f (.array items) = .array (items.map f))
    (object : ∀ fields, ∃ others, f (.object fields) = .object others ∧
      ∀ name, others.get? (names name) = (fields.get? name).map f) :
    Simulation names fun v w => f v = w where
  field := by
    rintro v _ rfl name
    cases v with
    | object fields =>
      obtain ⟨others, hothers, hget⟩ := object fields
      simp only [Document.field, hothers, Document.fields?, hget]
      cases fields.get? name with
      | none => exact .error (.missingField hothers)
      | some child => exact .ok rfl
    | scalar s =>
      have himage : (f (.scalar s)).field (names name)
          = .error (.mismatch .object (f (.scalar s))) :=
        Document.field_eq_error_iff.mpr (.inl ⟨by rw [shape, Document.shape]; decide, rfl⟩)
      rw [himage]
      exact .error (.mismatch rfl)
    | array items =>
      rw [array]
      exact .error (.mismatch (array items))
  elements := by
    rintro v _ rfl
    cases v with
    | array items =>
      rw [array]
      refine .ok ?_
      rw [List.forall₂_map_right_iff]
      exact List.forall₂_same.mpr fun item _ => rfl
    | scalar s =>
      have himage : (f (.scalar s)).elements = .error (.mismatch .array (f (.scalar s))) :=
        Document.elements_eq_error_iff.mpr ⟨by rw [shape, Document.shape]; decide, rfl⟩
      rw [himage]
      exact .error (.mismatch rfl)
    | object fields =>
      obtain ⟨others, hothers, _⟩ := object fields
      rw [hothers]
      exact .error (.mismatch hothers)
  array := by
    intro items others h
    have hitems : items.map f = others := by
      rwa [← List.forall₂_eq_eq_eq, List.forall₂_map_left_iff]
    rw [array, hitems]

/-! ## Replacing scalars -/

/-- The shape that was found is that of the value still. -/
theorem ResolveError.map_mismatch (f : σ → ρ) (expected : Shape) (v : Document σ) :
    (mismatch expected v).map f = mismatch expected (v.map f) := by
  rw [mismatch, mismatch, map, Document.shape_map]

/-- Replaces every scalar of an outcome. -/
def Attempt.mapScalars (f : σ → ρ) : Attempt σ (Document σ) → Attempt ρ (Document ρ)
  | .ok v => .ok (v.map f)
  | .error e => .error (e.map f)

/-- A document is related to the one with its scalars replaced. -/
theorem simulation_map (f : σ → ρ) : Simulation id fun (v : Document σ) w => v.map f = w :=
  .of_map (Document.shape_map f) (fun items => by rw [Document.map, Document.mapItems_eq_map])
    fun fields => ⟨_, rfl, Document.get?_mapFields f fields⟩

/-- **Replacing all scalars and resolving can change places.** -/
theorem resolve_map (f : σ → ρ) (p : Path) (v : Document σ) :
    (v.map f).resolve p = Attempt.mapScalars f (v.resolve p) := by
  obtain ⟨u, u', hu, hu', result⟩ | ⟨e, e', he, he', cause⟩ :=
    ((simulation_map f).resolve p (rfl : v.map f = v.map f)).ok_or_error
  · rw [hu, hu', ← result]
    rfl
  · rw [he, he']
    cases cause with
    | mismatch value => rw [← value, Attempt.mapScalars, ResolveError.map_mismatch]
    | missingField value => rw [← value]; rfl

end PropertyPath
