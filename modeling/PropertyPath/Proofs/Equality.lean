import PropertyPath.Proofs.RelatedTraces

/-!
# Resolving respects equality

Equality of values compares floats as numbers. It takes the two zeros for equal, and it is not
reflexive where a NaN occurs. So it is not the equality of this logic, and that equal values resolve
to equal values has to be shown.

## Mechanism

Resolving puts documents in relation as long as fields, elements and arrays respect that relation,
and equality up to any relation of scalars is one such (`simulation_equivBy`). Two objects are equal
when they are so key by key, and only the lookups of an object are asked for. Equal segments act
alike: what a segment does depends on its kind, on its name and on whether one attribute is true,
and a value that equals true is true.

* `equivFields_iff_get?` — objects are equal as maps
* `resolve_respects_equiv` — equal values along equal paths have equal outcomes and equal steps
-/

namespace PropertyPath

variable {σ ρ : Type} {same : σ → ρ → Bool}

namespace Document

/-! ## Equality by what is inside -/

theorem shape_eq_of_equivBy {v : Document σ} {w : Document ρ} (h : equivBy same v w = true) :
    v.shape = w.shape := by
  cases v <;> cases w <;> first | rfl | simp [equivBy] at h

/-- Lists are equal element by element. -/
theorem equivItems_iff_forall₂ {items : List (Document σ)} {others : List (Document ρ)} :
    equivItems same items others = true ↔
      List.Forall₂ (fun v w => equivBy same v w = true) items others := by
  induction items generalizing others with
  | nil => cases others <;> simp [equivItems]
  | cons item rest ih => cases others <;> simp [equivItems, ih]

theorem isSome_eq_of_rel {α β : Type} {R : α → β → Prop} {x : Option α} {y : Option β}
    (h : Option.Rel R x y) : x.isSome = y.isSome := by
  cases h <;> rfl

/-- Chains that bind the same keys have the same first key. -/
theorem first_key_eq {α β : Type} {bound bound' : Option String} {k k' : String}
    {hk : Above bound k} {hk' : Above bound' k'} {a : α} {b : β} {rest : Bindings α (some k)}
    {others : Bindings β (some k')} (h : ∀ key,
      ((Bindings.cons k hk a rest).get? key).isSome
        = ((Bindings.cons k' hk' b others).get? key).isSome) : k = k' := by
  by_contra hne
  have hself := h k
  have hother := h k'
  rw [Bindings.get?_cons, Bindings.get?_cons, if_pos rfl, if_neg hne] at hself
  rw [Bindings.get?_cons, Bindings.get?_cons, if_neg (Ne.symm hne), if_pos rfl] at hother
  -- otherwise each of the two first keys would come after the other
  obtain ⟨_, hlater⟩ := Option.isSome_iff_exists.mp hself.symm
  obtain ⟨_, hearlier⟩ := Option.isSome_iff_exists.mp hother
  exact String.lt_asymm (Bindings.above_of_get? hlater).lt (Bindings.above_of_get? hearlier).lt

/-- **Objects are equal as maps**: under each key both bind nothing, or equal documents. -/
theorem equivFields_iff_get? {bound bound' : Option String}
    {fields : Bindings (Document σ) bound} {others : Bindings (Document ρ) bound'} :
    equivFields same fields others = true ↔
      ∀ key, Option.Rel (fun v w => equivBy same v w = true) (fields.get? key)
        (others.get? key) := by
  induction fields generalizing bound' with
  | nil =>
    cases others with
    | nil => exact ⟨fun _ key => .none, fun _ => rfl⟩
    | cons k hk w others =>
      refine ⟨fun h => by simp [equivFields] at h, fun h => ?_⟩
      have hfirst := h k
      rw [Bindings.get?_nil, Bindings.get?_cons, if_pos rfl] at hfirst
      cases hfirst
  | cons k hk v rest ih =>
    cases others with
    | nil =>
      refine ⟨fun h => by simp [equivFields] at h, fun h => ?_⟩
      have hfirst := h k
      rw [Bindings.get?_nil, Bindings.get?_cons, if_pos rfl] at hfirst
      cases hfirst
    | cons k' hk' w others =>
      rw [equivFields, Bool.and_eq_true, Bool.and_eq_true, beq_iff_eq, ih]
      constructor
      · rintro ⟨⟨rfl, hvw⟩, hrest⟩ key
        rw [Bindings.get?_cons, Bindings.get?_cons]
        split
        · exact .some hvw
        · exact hrest key
      · intro h
        obtain rfl : k = k' := first_key_eq fun key => isSome_eq_of_rel (h key)
        have hfirst := h k
        rw [Bindings.get?_cons, Bindings.get?_cons, if_pos rfl, if_pos rfl] at hfirst
        cases hfirst with | some hvw =>
        refine ⟨⟨rfl, hvw⟩, fun key => ?_⟩
        by_cases heq : key = k
        · rw [heq, Bindings.get?_bound, Bindings.get?_bound]
          exact .none
        · have hkey := h key
          rwa [Bindings.get?_cons, Bindings.get?_cons, if_neg heq, if_neg heq] at hkey

/-! ## Equal documents answer alike -/

/-- **Fields, elements and arrays respect equality.** -/
theorem simulation_equivBy (same : σ → ρ → Bool) :
    Simulation id fun (v : Document σ) (w : Document ρ) => equivBy same v w = true where
  field := by
    intro v w hvw name
    by_cases hobject : v.shape = .object
    · cases v with
      | object fields =>
        cases w with
        | object others =>
          have hget := equivFields_iff_get?.mp hvw name
          simp only [field, fields?, id]
          generalize fields.get? name = child at hget ⊢
          generalize others.get? name = child' at hget ⊢
          cases hget with
          | none => exact .error (.missingField hvw)
          | some hchild => exact .ok hchild
        | scalar _ => simp [equivBy] at hvw
        | array _ => simp [equivBy] at hvw
      | scalar _ => cases hobject
      | array _ => cases hobject
    · have hother : w.shape ≠ .object := shape_eq_of_equivBy hvw ▸ hobject
      rw [field_eq_error_iff.mpr (.inl ⟨hobject, rfl⟩),
        field_eq_error_iff.mpr (.inl ⟨hother, rfl⟩)]
      exact .error (.mismatch hvw)
  elements := by
    intro v w hvw
    by_cases harray : v.shape = .array
    · cases v with
      | array items =>
        cases w with
        | array others => exact .ok (equivItems_iff_forall₂.mp hvw)
        | scalar _ => simp [equivBy] at hvw
        | object _ => simp [equivBy] at hvw
      | scalar _ => cases harray
      | object _ => cases harray
    · have hother : w.shape ≠ .array := shape_eq_of_equivBy hvw ▸ harray
      rw [elements_eq_error_iff.mpr ⟨harray, rfl⟩, elements_eq_error_iff.mpr ⟨hother, rfl⟩]
      exact .error (.mismatch hvw)
  array := equivItems_iff_forall₂.mpr

end Document

/-! ## Equal segments act alike -/

/-- Booleans equal nothing but themselves. -/
theorem Value.eq_ofBool_iff_of_equiv {v w : Value} (h : Value.equiv v w = true) (b : Bool) :
    v = Value.ofBool b ↔ w = Value.ofBool b := by
  constructor
  · rintro rfl
    cases w with
    | scalar t => cases t <;> simp_all [equiv, ofBool, Document.equivBy, Scalar.equiv]
    | array _ | object _ => cases Document.shape_eq_of_equivBy h
  · rintro rfl
    cases v with
    | scalar s => cases s <;> simp_all [equiv, ofBool, Document.equivBy, Scalar.equiv]
    | array _ | object _ => cases Document.shape_eq_of_equivBy h

namespace Segment

theorem equiv_iff {s t : Segment} : s.equiv t = true ↔
    s.name = t.name ∧ s.kind = t.kind ∧ Fields.equiv s.attrs t.attrs = true := by
  simp [equiv, and_assoc]

/-- Of equal segments both stand for the document or none does. -/
theorem isRoot_eq_of_equiv {s t : Segment} (h : s.equiv t = true) : t.isRoot = s.isRoot := by
  have hget := Document.equivFields_iff_get?.mp (equiv_iff.mp h).2.2 rootKey
  rw [Bool.eq_iff_iff, isRoot, isRoot, decide_eq_true_iff, decide_eq_true_iff]
  cases hs : s.attrs.get? rootKey with
  | none =>
    rw [hs] at hget
    generalize t.attrs.get? rootKey = w at hget ⊢
    cases hget
    rfl
  | some v =>
    rw [hs] at hget
    generalize t.attrs.get? rootKey = w at hget ⊢
    cases hget with | some hvw =>
    rw [Option.some.injEq, Option.some.injEq]
    exact (Value.eq_ofBool_iff_of_equiv hvw true).symm

/-- **Equal segments act alike.** -/
theorem actsAlike_of_equiv {s t : Segment} (h : s.equiv t = true) : s.ActsAlike id t := by
  obtain ⟨hname, hkind, -⟩ := equiv_iff.mp h
  have hhasName : t.hasName = s.hasName := by rw [hasName, hasName, hname]
  refine ⟨hname.symm, hhasName, ?_⟩
  rw [action, action, hkind, hhasName, isRoot_eq_of_equiv h]

end Segment

/-- Paths are equal segment by segment. -/
theorem Path.equiv_iff_forall₂ {p q : Path} :
    p.equiv q = true ↔ List.Forall₂ (fun s t => s.equiv t = true) p q := by
  induction p generalizing q with
  | nil => cases q <;> simp [equiv]
  | cons s p ih => cases q <;> simp [equiv, ih]

/-! ## Equal outcomes -/

/-- Failures at equal values for the same cause are equal, and so are the shapes of the values. -/
theorem ResolveError.equiv_of_related {e e' : ResolveError Scalar}
    (h : e.Related id (fun v w => Value.equiv v w = true) e') :
    e.equiv e' = true ∧ e.value.shape = e'.value.shape := by
  cases h with
  | @mismatch expected v w value =>
    have hshape : v.shape = w.shape := Document.shape_eq_of_equivBy value
    exact ⟨by simp [mismatch, equiv, value, hshape], hshape⟩
  | missingField value => exact ⟨by simp [equiv, value], Document.shape_eq_of_equivBy value⟩

theorem Attempt.equiv_of_related {x y : Attempt Scalar Value}
    (h : Attempt.Related id (fun v w => Value.equiv v w = true) (fun v w => Value.equiv v w = true)
      x y) : Attempt.equiv x y = true := by
  cases h with
  | ok result => exact result
  | error cause => exact (ResolveError.equiv_of_related cause).1

/-- Steps on equal values along equal segments. -/
structure Event.Equal (e e' : Event Scalar) : Prop where
  index : e.index = e'.index
  name : e.segment.map Segment.name = e'.segment.map Segment.name
  kind : e.segment.map Segment.kind = e'.segment.map Segment.kind
  step : e.step = e'.step
  value : Value.equiv e.value e'.value = true

theorem Event.equal_of_related {e e' : Event Scalar}
    (h : Event.Related (fun s t => s.equiv t = true) (fun v w => Value.equiv v w = true) e e') :
    e.Equal e' := by
  obtain ⟨index, segment, step, value⟩ := e
  obtain ⟨index', segment', step', value'⟩ := e'
  obtain ⟨hindex, hsegment, hstep, hvalue⟩ := h
  dsimp only at hindex hsegment hstep hvalue
  cases hsegment with
  | none => exact ⟨hindex, rfl, rfl, hstep, hvalue⟩
  | some hst =>
    obtain ⟨hname, hkind, -⟩ := Segment.equiv_iff.mp hst
    exact ⟨hindex, congrArg some hname, congrArg some hkind, hstep, hvalue⟩

/-- **Resolving respects equality.** Equal values along equal paths have equal outcomes, and the
walks take the same steps on equal values, one by one; equal failures have found the same shape, and
their values have it. And what is found in a value that equals itself equals itself, also along a
path that does not. -/
theorem resolve_respects_equiv (v w : Value) (p q : Path) :
    (Value.equiv v w = true → p.equiv q = true →
      Attempt.equiv (v.resolve p) (w.resolve q) = true ∧
      (∀ e e', v.resolve p = .error e → w.resolve q = .error e' →
        e.value.shape = e'.value.shape) ∧
      (v.trace p).length = (w.trace q).length ∧
      List.Forall₂ Event.Equal (v.trace p) (w.trace q)) ∧
    ∀ u, v.resolve p = .ok u → Value.equiv v v = true → Value.equiv u u = true := by
  have hsim := Document.simulation_equivBy Scalar.equiv
  refine ⟨fun hvw hpq => ?_, fun u hu hv => ?_⟩
  · have hpath := Path.equiv_iff_forall₂.mp hpq
    have hresolve := hsim.resolve_alike Segment.actsAlike_of_equiv hpath hvw
    have htrace := hsim.trace Segment.actsAlike_of_equiv hpath hvw
    refine ⟨Attempt.equiv_of_related hresolve, fun e e' he he' => ?_, htrace.length_eq,
      htrace.imp fun _ _ => Event.equal_of_related⟩
    rw [he, he'] at hresolve
    cases hresolve with | error cause =>
    exact (ResolveError.equiv_of_related cause).2
  · have hresolve := hsim.resolve p hv
    rw [hu] at hresolve
    cases hresolve with | ok result =>
    exact result

/-- Arrays of the one zero and of the other, along segments that hold the zeros as attributes, and
the steps up to a field that is missing in both. -/
theorem resolve_respects_equiv_zeros :
    let zero := Value.ofBinary64 ⟨0⟩
    let negative := Value.ofBinary64 ⟨0x8000000000000000⟩
    let found : Path := [(Segment.of "" .array).withAttr "k" negative]
    let foundToo : Path := [(Segment.of "" .array).withAttr "k" zero]
    (Document.array [zero] ≠ Document.array [negative] ∧ found ≠ foundToo) ∧
    Attempt.equiv ((Document.array [zero]).resolve found)
      ((Document.array [negative]).resolve foundToo) = true ∧
    List.Forall₂ Event.Equal ((Document.array [zero]).trace [.of "" .array, .of "a" .literal])
      ((Document.array [negative]).trace [.of "" .array, .of "a" .literal]) ∧
    Value.equiv (.array [zero]) (.array [zero]) = true := by
  intro zero negative found foundToo
  have hvalues : Value.equiv (.array [zero]) (.array [negative]) = true := by decide
  have hfound := (resolve_respects_equiv (.array [zero]) (.array [negative]) found foundToo).1
    hvalues (by decide)
  have hmissed := (resolve_respects_equiv (.array [zero]) (.array [negative])
    [.of "" .array, .of "a" .literal] [.of "" .array, .of "a" .literal]).1 hvalues (by decide)
  refine ⟨by decide, hfound.1, hmissed.2.2.2, ?_⟩
  exact (resolve_respects_equiv (.array [zero]) (.array [zero]) found found).2 (.array [zero]) rfl
    (by decide)

end PropertyPath
