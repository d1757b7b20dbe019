import PropertyPath.Proofs.Steps

/-!
# Observers do not interfere

A resolver is used for one call after another. An observer gets no say in the outcomes, and what it
has seen in the end is what the calls tell on their own, put together in order.

## Mechanism

One call folds the steps of that call into the state, whether it fails or not (`resolve_eq_fold`).
The calls follow each other, so a sequence of calls folds in one list of steps after the other.

An observer that is lent out works on a state kept inside a larger one. `IsCell` says that reading
and writing there behave as they do with a place in memory. Folding into such a place is folding and
then writing once.

* `resolve_eq_fold` — one call
* `resolveAll_noninterference` — any sequence of calls, by an observer of one's own or a lent one
-/

namespace PropertyPath

variable {σ τ ρ : Type}

/-! ## One call -/

namespace Resolver

/-- A call has the outcome of its path and folds its trace into the state, also when it fails. -/
theorem resolve_eq_fold (r : Resolver σ τ) (v : Document σ) (p : Path) :
    r.resolve v p
      = (v.resolve p, { r with state := (v.trace p).foldl r.observer.onStep r.state }) := by
  unfold resolve
  rw [visit_tells r.observer p 0 v, Document.trace_eq_steps]

/-! ## One call after another -/

/-- Resolves paths on documents one after another, and gives the outcomes and the resolver to go on
with. -/
def resolveAll (r : Resolver σ τ) :
    List (Document σ × Path) → List (Attempt σ (Document σ)) × Resolver σ τ
  | [] => ([], r)
  | (v, p) :: calls =>
    let (outcome, next) := r.resolve v p
    let (outcomes, last) := next.resolveAll calls
    (outcome :: outcomes, last)

/-- A sequence of calls folds in the trace of each of them, in order. -/
theorem resolveAll_eq_fold (calls : List (Document σ × Path)) : ∀ r : Resolver σ τ,
    r.resolveAll calls
      = (calls.map fun call => call.1.resolve call.2,
        { r with state :=
          (calls.flatMap fun call => call.1.trace call.2).foldl r.observer.onStep r.state }) := by
  induction calls with
  | nil => intro r; rfl
  | cons call calls ih =>
    intro r
    obtain ⟨v, p⟩ := call
    rw [resolveAll, resolve_eq_fold, List.map_cons, List.flatMap_cons, List.foldl_append]
    simp only [ih]

end Resolver

/-! ## Lent observers -/

/-- Reading and writing a part of a larger state behave as with a place in memory. -/
structure IsCell (get : ρ → τ) (set : ρ → τ → ρ) : Prop where
  get_set : ∀ outer state, get (set outer state) = state
  set_get : ∀ outer, set outer (get outer) = outer
  set_set : ∀ outer state next, set (set outer state) next = set outer next

/-- Folding into a place is folding what stands there and writing it back. -/
theorem foldl_within {get : ρ → τ} {set : ρ → τ → ρ} (h : IsCell get set) (o : Observer σ τ)
    (events : List (Event σ)) : ∀ outer,
      events.foldl (o.within get set).onStep outer
        = set outer (events.foldl o.onStep (get outer)) := by
  induction events with
  | nil => intro outer; exact (h.set_get outer).symm
  | cons event events ih =>
    intro outer
    rw [List.foldl_cons, List.foldl_cons, ih]
    show set (set outer _) (events.foldl o.onStep (get (set outer _))) = _
    rw [h.set_set, h.get_set]

/-- **Observers do not interfere, and resolvers carry nothing from call to call but what they
observed.** The outcomes of a sequence of calls are those of the paths on their own. The observer
ends with the traces of the calls folded in, one after the other. If its state is kept inside a
larger one, the outcomes are the same, the state is the same, and nothing around it changes. So a
recorder holds what fresh recorders would have recorded, call by call, whether calls fail or not. -/
theorem resolveAll_noninterference (r : Resolver σ τ) (calls : List (Document σ × Path)) :
    ((r.resolveAll calls).1 = calls.map fun call => call.1.resolve call.2) ∧
    (r.resolveAll calls).2.state
      = (calls.flatMap fun call => call.1.trace call.2).foldl r.observer.onStep r.state ∧
    (∀ {ρ : Type} {get : ρ → τ} {set : ρ → τ → ρ}, IsCell get set →
      ∀ outer, get outer = r.state →
        let lent := (Resolver.mk (r.observer.within get set) outer).resolveAll calls
        lent.1 = (r.resolveAll calls).1 ∧ get lent.2.state = (r.resolveAll calls).2.state ∧
          lent.2.state = set outer (r.resolveAll calls).2.state) ∧
    (Resolver.recording.resolveAll calls).2.state.toList
      = calls.flatMap fun call => (Resolver.recording.resolve call.1 call.2).2.state.toList := by
  refine ⟨by rw [Resolver.resolveAll_eq_fold], by rw [Resolver.resolveAll_eq_fold], ?_, ?_⟩
  · intro ρ get set hcell outer hstate
    simp only [Resolver.resolveAll_eq_fold, foldl_within hcell, hcell.get_set, hstate, and_self]
  · rw [Resolver.resolveAll_eq_fold]
    exact toList_foldl_push _

/-- The second half of a pair is a place. -/
theorem isCell_snd {κ : Type} : IsCell Prod.snd fun (outer : κ × τ) state => (outer.1, state) :=
  ⟨fun _ _ => rfl, fun _ => rfl, fun _ _ _ => rfl⟩

/-- A recorder beside a label, lent for a call that fails and one that does not. -/
theorem resolveAll_lent_recorder :
    IsCell Prod.snd (fun (outer : String × Array (Event Scalar)) steps => (outer.1, steps)) ∧
    ((Resolver.mk (Observer.recorder.within Prod.snd
        fun (outer : String × Array (Event Scalar)) steps => (outer.1, steps))
          ("kept", #[])).resolveAll
            [(.object .nil, [.of "a" .object, .of "b" .literal]), (Value.null, [])]).2.state
      = ("kept", #[⟨0, some (.of "a" .object), .applied .descend, .object .nil⟩,
          ⟨0, none, .ended, Value.null⟩]) :=
  ⟨isCell_snd, ((resolveAll_noninterference .recording
    [(.object .nil, [.of "a" .object, .of "b" .literal]), (Value.null, [])]).2.2.1
      isCell_snd ("kept", #[]) rfl).2.2.trans rfl⟩

end PropertyPath
