import PropertyPath.Proofs.Collect
import PropertyPath.Resolve.Lemmas

/-!
# The steps of a walk

`steps` lists the steps of a walk without an observer. It follows the path: a step is listed before
what comes of it, and a fan-out goes on with the elements up to the first one that fails.

## Mechanism

A walk with an observer has an outcome and leaves a state. `Tells` says both at once: from every
state the outcome is the same, and the state left is the old one with a fixed list of steps folded
into it. Each way of putting computations together keeps this, and the lists are put together
alongside.

* `visit_tells` — a walk has the outcome of the path and tells its steps, whoever observes
* `trace_eq_steps` — a recording is the list of steps
* `steps_root` to `steps_fanOut_error` — the steps, action by action
-/

namespace PropertyPath

variable {σ τ α β : Type}

/-! ## Listing -/

/-- The steps of resolving segments on a value; `index` is the position of the first of them. -/
def steps (index : Nat) (v : Document σ) : Path → List (Event σ)
  | [] => [⟨index, none, .ended, v⟩]
  | s :: rest =>
    ⟨index, some s, .applied s.action, v⟩ ::
      match s.action with
      | .verbatim | .leaf => []
      | .root => steps (index + 1) v rest
      | .descend =>
        match v.field s.name with
        | .ok child => steps (index + 1) child rest
        | .error _ => []
      | .fanOut =>
        match s.elements v with
        | .ok items =>
          (tried (fun item => item.resolve rest) items).flatMap fun item =>
            steps (index + 1) item rest
        | .error _ => []

section Step

variable {s : Segment} (index : Nat) (v : Document σ) (rest : Path)

theorem steps_nil : steps index v [] = [⟨index, none, .ended, v⟩] := rfl

theorem steps_verbatim (h : s.action = .verbatim) :
    steps index v (s :: rest) = [⟨index, some s, .applied .verbatim, v⟩] := by
  simp only [steps, h]

theorem steps_leaf (h : s.action = .leaf) :
    steps index v (s :: rest) = [⟨index, some s, .applied .leaf, v⟩] := by
  simp only [steps, h]

theorem steps_root (h : s.action = .root) :
    steps index v (s :: rest)
      = ⟨index, some s, .applied .root, v⟩ :: steps (index + 1) v rest := by
  simp only [steps, h]

theorem steps_descend {child : Document σ} (h : s.action = .descend)
    (hchild : v.field s.name = .ok child) :
    steps index v (s :: rest)
      = ⟨index, some s, .applied .descend, v⟩ :: steps (index + 1) child rest := by
  simp only [steps, h, hchild]

theorem steps_descend_error {e : ResolveError σ} (h : s.action = .descend)
    (herr : v.field s.name = .error e) :
    steps index v (s :: rest) = [⟨index, some s, .applied .descend, v⟩] := by
  simp only [steps, h, herr]

theorem steps_fanOut {items : List (Document σ)} (h : s.action = .fanOut)
    (hitems : s.elements v = .ok items) :
    steps index v (s :: rest)
      = ⟨index, some s, .applied .fanOut, v⟩ ::
        (tried (fun item => item.resolve rest) items).flatMap fun item =>
          steps (index + 1) item rest := by
  simp only [steps, h, hitems]

theorem steps_fanOut_error {e : ResolveError σ} (h : s.action = .fanOut)
    (herr : s.elements v = .error e) :
    steps index v (s :: rest) = [⟨index, some s, .applied .fanOut, v⟩] := by
  simp only [steps, h, herr]

end Step

/-! ## Telling -/

namespace Observed

/-- From every state the computation has this outcome, and the observer is told these events. -/
def Tells (o : Observer σ τ) (x : Observed σ τ α) (r : Attempt σ α) (events : List (Event σ)) :
    Prop :=
  ∀ state, x.run state = (r, events.foldl o.onStep state)

section Tells

variable {o : Observer σ τ}

theorem Tells.pure (a : α) : Tells o (pure a) (.ok a) [] := fun _ => rfl

theorem Tells.liftM (x : Attempt σ α) : Tells o (liftM x) x [] := fun state => run_liftM x state

theorem Tells.tell (event : Event σ) : Tells o (o.tell event) (.ok ()) [event] := fun _ => rfl

theorem Tells.bind {x : Observed σ τ α} {f : α → Observed σ τ β} {a : α} {r : Attempt σ β}
    {events more : List (Event σ)} (hx : Tells o x (.ok a) events) (hf : Tells o (f a) r more) :
    Tells o (x >>= f) r (events ++ more) := by
  intro state
  rw [run_bind, hx state]
  show (f a).run _ = _
  rw [hf, List.foldl_append]

theorem Tells.bind_error {x : Observed σ τ α} {f : α → Observed σ τ β} {e : ResolveError σ}
    {events : List (Event σ)} (hx : Tells o x (.error e) events) :
    Tells o (x >>= f) (.error e) events := by
  intro state
  rw [run_bind, hx state]

/-- What is told first stands first. -/
theorem Tells.first {event : Event σ} {x : Observed σ τ α} {r : Attempt σ α}
    {events : List (Event σ)} (hx : Tells o x r events) :
    Tells o (o.tell event >>= fun _ => x) r (event :: events) :=
  (Tells.tell event).bind hx

/-- Nothing is told when a result is only turned into another. -/
theorem Tells.bind_pure {x : Observed σ τ α} {r : Attempt σ α} {events : List (Event σ)}
    (hx : Tells o x r events) (f : α → β) :
    Tells o (x >>= fun a => Pure.pure (f a)) (r >>= fun a => .ok (f a)) events := by
  cases r with
  | ok a =>
    rw [← List.append_nil events]
    exact hx.bind (.pure (f a))
  | error e => exact hx.bind_error

/-- Collecting tells what is told for each element that it tries. -/
theorem Tells.mapM {f : α → Observed σ τ β} {g : α → Attempt σ β} {log : α → List (Event σ)}
    (hf : ∀ a, Tells o (f a) (g a) (log a)) (items : List α) :
    Tells o (items.mapM f) (items.mapM g) ((tried g items).flatMap log) := by
  induction items with
  | nil => exact .pure []
  | cons a rest ih =>
    rw [List.mapM_cons, List.mapM_cons, tried]
    have ha := hf a
    cases hg : g a with
    | error e =>
      rw [hg] at ha
      show Tells o _ _ ([a].flatMap log)
      rw [List.flatMap_singleton]
      exact ha.bind_error
    | ok b =>
      rw [hg] at ha
      show Tells o _ _ ((a :: tried g rest).flatMap log)
      rw [List.flatMap_cons]
      exact ha.bind (ih.bind_pure (b :: ·))

end Tells

end Observed

open Observed

/-- **A walk has the outcome of its path and tells its steps, whoever observes it.** -/
theorem visit_tells (o : Observer σ τ) (p : Path) : ∀ (index : Nat) (v : Document σ),
    Tells o (visit o index v p) (v.resolve p) (steps index v p) := by
  induction p with
  | nil => intro index v state; rfl
  | cons s rest ih =>
    intro index v
    cases h : s.action with
    | verbatim =>
      simp only [visit, h, Document.resolve_verbatim h, steps_verbatim index v rest h]
      exact .first (.pure v)
    | leaf =>
      simp only [visit, h, Document.resolve_leaf h, steps_leaf index v rest h]
      exact .first (.liftM _)
    | root =>
      simp only [visit, h, Document.resolve_root h, steps_root index v rest h]
      exact .first (ih (index + 1) v)
    | descend =>
      have hfield := Tells.liftM (o := o) (v.field s.name)
      simp only [visit, h, Document.resolve_descend h]
      cases hf : v.field s.name with
      | ok child =>
        rw [hf] at hfield
        rw [steps_descend index v rest h hf]
        exact .first (hfield.bind (ih (index + 1) child))
      | error e =>
        rw [hf] at hfield
        rw [steps_descend_error index v rest h hf]
        exact .first hfield.bind_error
    | fanOut =>
      have helements := Tells.liftM (o := o) (s.elements v)
      simp only [visit, h, Document.resolve_fanOut h]
      cases he : s.elements v with
      | ok items =>
        rw [he] at helements
        rw [steps_fanOut index v rest h he]
        have hitems := Tells.mapM (ih (index + 1)) items
        exact .first (helements.bind (hitems.bind_pure _))
      | error e =>
        rw [he] at helements
        rw [steps_fanOut_error index v rest h he]
        exact .first helements.bind_error

theorem toList_foldl_push (events : List α) : (events.foldl Array.push #[]).toList = events := by
  simp

/-- A recording is the list of steps. -/
theorem Document.trace_eq_steps (v : Document σ) (p : Path) : v.trace p = steps 0 v p := by
  show ((visit .recorder 0 v p).run #[]).2.toList = _
  rw [visit_tells .recorder p 0 v]
  exact toList_foldl_push _

end PropertyPath
