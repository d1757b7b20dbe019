import PropertyPath.Resolve.Basic

/-!
# Resolving by equations

* `visit_hasOutcome` — the outcome of a walk depends on the value and the segments only, not on the
  observer, its state or the position
* `resolve_nil`, `resolve_cons` — the outcome, segment by segment; `resolve_verbatim` to
  `resolve_fanOut` say it for each action
* `field_eq_ok_iff` to `elements_eq_error_iff` — when an access succeeds and how it fails
* `action_eq_verbatim_iff` to `action_eq_fanOut_iff` — which segments take an action

A walk is a computation with a state. `HasOutcome` says that its outcome is the same from every
state, and is kept by each way of putting computations together. Later proofs use the equations and
leave the walk closed.
-/

namespace PropertyPath

variable {σ τ α β : Type}

/-! ## Running observed computations -/

namespace Observed

@[simp] theorem run_pure (a : α) (state : τ) :
    (pure a : Observed σ τ α).run state = (.ok a, state) := rfl

@[simp] theorem run_liftM (x : Attempt σ α) (state : τ) :
    (liftM x : Observed σ τ α).run state = (x, state) := by
  cases x <;> rfl

@[simp] theorem run_tell (o : Observer σ τ) (event : Event σ) (state : τ) :
    (o.tell event).run state = (.ok (), o.onStep state event) := rfl

/-- After a failure nothing is run; otherwise the state is handed on. -/
theorem run_bind (x : Observed σ τ α) (f : α → Observed σ τ β) (state : τ) :
    (x >>= f).run state = match x.run state with
      | (.ok a, next) => (f a).run next
      | (.error e, next) => (.error e, next) := by
  unfold run
  rw [ExceptT.run_bind, StateT.run_bind]
  rcases (ExceptT.run x).run state with ⟨r, next⟩
  cases r <;> rfl

/-- The computation has this outcome from every state. -/
def HasOutcome (x : Observed σ τ α) (r : Attempt σ α) : Prop := ∀ state, (x.run state).1 = r

theorem HasOutcome.pure (a : α) : HasOutcome (pure a : Observed σ τ α) (.ok a) := fun _ => rfl

theorem HasOutcome.liftM (x : Attempt σ α) : HasOutcome (liftM x : Observed σ τ α) x :=
  fun state => by rw [run_liftM]

theorem HasOutcome.tell (o : Observer σ τ) (event : Event σ) : HasOutcome (o.tell event) (.ok ()) :=
  fun _ => rfl

theorem HasOutcome.bind {x : Observed σ τ α} {r : Attempt σ α} {f : α → Observed σ τ β}
    {g : α → Attempt σ β} (hx : HasOutcome x r) (hf : ∀ a, HasOutcome (f a) (g a)) :
    HasOutcome (x >>= f) (r >>= g) := by
  intro state
  rw [run_bind]
  have h := hx state
  rcases hr : x.run state with ⟨q, next⟩
  rw [hr] at h
  subst h
  cases q with
  | error e => rfl
  | ok a => exact hf a next

theorem HasOutcome.mapM {f : α → Observed σ τ β} {g : α → Attempt σ β}
    (hf : ∀ a, HasOutcome (f a) (g a)) (items : List α) :
    HasOutcome (items.mapM f) (items.mapM g) := by
  induction items with
  | nil => exact .pure []
  | cons a rest ih =>
    rw [List.mapM_cons, List.mapM_cons]
    exact (hf a).bind fun b => ih.bind fun bs => .pure (b :: bs)

end Observed

/-! ## The outcome -/

/-- What applying a segment gives, where `next` resolves what is left of the path. -/
def Segment.apply (s : Segment) (next : Document σ → Attempt σ (Document σ)) (v : Document σ) :
    Attempt σ (Document σ) :=
  match s.action with
  | .verbatim => .ok v
  | .leaf => v.field s.name
  | .root => next v
  | .descend => v.field s.name >>= next
  | .fanOut => s.elements v >>= fun items => items.mapM next >>= fun found => .ok (.array found)

theorem visit_cons_hasOutcome {o : Observer σ τ} {s : Segment} {rest : Path}
    {next : Document σ → Attempt σ (Document σ)}
    (h : ∀ v index, Observed.HasOutcome (visit o index v rest) (next v)) (v : Document σ)
    (index : Nat) : Observed.HasOutcome (visit o index v (s :: rest)) (s.apply next v) := by
  unfold visit Segment.apply
  refine Observed.HasOutcome.bind (g := fun _ => _) (.tell o _) fun _ => ?_
  cases s.action with
  | verbatim => exact .pure v
  | leaf => exact .liftM _
  | root => exact h v _
  | descend => exact (Observed.HasOutcome.liftM _).bind fun child => h child _
  | fanOut =>
    exact (Observed.HasOutcome.liftM _).bind fun items =>
      (Observed.HasOutcome.mapM (fun item => h item _) items).bind fun found => .pure _

namespace Document

@[simp] theorem resolve_nil (v : Document σ) : v.resolve [] = .ok v := rfl

/-- **Who watches, and from which position, does not matter to the outcome.** -/
theorem visit_hasOutcome (o : Observer σ τ) (p : Path) :
    ∀ (v : Document σ) (index : Nat), Observed.HasOutcome (visit o index v p) (v.resolve p) := by
  induction p generalizing τ with
  | nil => intro v index state; rfl
  | cons s rest ih =>
    intro v index
    have hself := visit_cons_hasOutcome (s := s) (ih (τ := Unit) .silent) v 0 ()
    have hv : v.resolve (s :: rest) = s.apply (fun w => w.resolve rest) v := hself
    rw [hv]
    exact visit_cons_hasOutcome (ih o) v index

/-- The outcome of a path is that of its first segment, followed by what is left of the path. -/
theorem resolve_cons (v : Document σ) (s : Segment) (rest : Path) :
    v.resolve (s :: rest) = s.apply (fun w => w.resolve rest) v :=
  visit_cons_hasOutcome (s := s) (visit_hasOutcome .silent rest) v 0 ()

variable {s : Segment}

theorem resolve_verbatim (h : s.action = .verbatim) (v : Document σ) (rest : Path) :
    v.resolve (s :: rest) = .ok v := by
  rw [resolve_cons, Segment.apply, h]

theorem resolve_leaf (h : s.action = .leaf) (v : Document σ) (rest : Path) :
    v.resolve (s :: rest) = v.field s.name := by
  rw [resolve_cons, Segment.apply, h]

theorem resolve_root (h : s.action = .root) (v : Document σ) (rest : Path) :
    v.resolve (s :: rest) = v.resolve rest := by
  rw [resolve_cons, Segment.apply, h]

theorem resolve_descend (h : s.action = .descend) (v : Document σ) (rest : Path) :
    v.resolve (s :: rest) = v.field s.name >>= fun child => child.resolve rest := by
  rw [resolve_cons, Segment.apply, h]

theorem resolve_fanOut (h : s.action = .fanOut) (v : Document σ) (rest : Path) :
    v.resolve (s :: rest) = s.elements v >>= fun items =>
      items.mapM (fun item => item.resolve rest) >>= fun found => .ok (.array found) := by
  rw [resolve_cons, Segment.apply, h]

/-! ## Checked access -/

theorem field_eq_ok_iff {v child : Document σ} {name : String} :
    v.field name = .ok child ↔ ∃ fields, v = .object fields ∧ fields.get? name = some child := by
  cases v with
  | object fields =>
    cases h : fields.get? name <;> simp [field, fields?, h]
  | scalar _ => simp [field, fields?]
  | array _ => simp [field, fields?]

theorem field_eq_error_iff {v : Document σ} {name : String} {e : ResolveError σ} :
    v.field name = .error e ↔ (v.shape ≠ .object ∧ e = .mismatch .object v) ∨
      ∃ fields, v = .object fields ∧ fields.get? name = none ∧ e = .missingField name v := by
  cases v with
  | object fields =>
    cases h : fields.get? name <;> simp [field, fields?, shape, h, eq_comm]
  | scalar _ => simp [field, fields?, shape, eq_comm]
  | array _ => simp [field, fields?, shape, eq_comm]

theorem elements_eq_ok_iff {v : Document σ} {items : List (Document σ)} :
    v.elements = .ok items ↔ v = .array items := by
  cases v <;> simp [elements, items?]

theorem elements_eq_error_iff {v : Document σ} {e : ResolveError σ} :
    v.elements = .error e ↔ v.shape ≠ .array ∧ e = .mismatch .array v := by
  cases v <;> simp [elements, items?, shape, eq_comm]

end Document

/-! ## Actions -/

namespace Segment

variable {s : Segment}

theorem elements_named (h : s.hasName = true) (v : Document σ) :
    s.elements v = v.field s.name >>= Document.elements := by
  rw [elements, if_pos h]

theorem elements_unnamed (h : s.hasName = false) (v : Document σ) :
    s.elements v = v.elements := by
  rw [elements, if_neg (by simp [h])]
  rfl

theorem hasName_eq_true_iff : s.hasName = true ↔ s.name ≠ "" := by
  simp [hasName]

theorem action_eq_verbatim_iff :
    s.action = .verbatim ↔ s.kind = .literal ∧ s.hasName = false := by
  unfold action
  cases s.kind <;> cases s.hasName <;> cases s.isRoot <;> simp

theorem action_eq_leaf_iff : s.action = .leaf ↔ s.kind = .literal ∧ s.hasName = true := by
  unfold action
  cases s.kind <;> cases s.hasName <;> cases s.isRoot <;> simp

theorem action_eq_root_iff :
    s.action = .root ↔ s.kind = .object ∧ (s.isRoot = true ∨ s.hasName = false) := by
  unfold action
  cases s.kind <;> cases s.hasName <;> cases s.isRoot <;> simp

theorem action_eq_descend_iff :
    s.action = .descend ↔ s.kind = .object ∧ s.isRoot = false ∧ s.hasName = true := by
  unfold action
  cases s.kind <;> cases s.hasName <;> cases s.isRoot <;> simp

theorem action_eq_fanOut_iff : s.action = .fanOut ↔ s.kind = .array := by
  unfold action
  cases s.kind <;> cases s.hasName <;> cases s.isRoot <;> simp

end Segment

end PropertyPath
