import PropertyPath.Resolve.Error
import PropertyPath.Resolve.Observer

/-!
# Resolving a path on a document

Resolving follows the segments from the document downwards. An array segment fans out: the segments
after it are resolved on each element in order, and the results form an array again. The first
failure is the outcome, and nothing is visited after it.

* `visit` — the walk, which tells an observer each step
* `Resolver.resolve` — one walk of a resolver that keeps its observer's state between calls
* `Document.resolve` — the outcome alone

The walk is structural on the segments, and never looks into a scalar.
-/

namespace PropertyPath

variable {σ τ α : Type}

/-! ## The walk -/

/-- A computation that may fail, and that carries an observer's state through even if it does. -/
abbrev Observed (σ τ : Type) := ExceptT (ResolveError σ) (StateM τ)

/-- The outcome of a computation and the state that it leaves. -/
def Observed.run (x : Observed σ τ α) (state : τ) : Attempt σ α × τ := (ExceptT.run x).run state

/-- Tells an observer a step. -/
def Observer.tell (o : Observer σ τ) (event : Event σ) : Observed σ τ Unit :=
  modify fun state => o.onStep state event

/-- Resolves segments on a value; `index` is the position of the first of them in the path. -/
def visit (o : Observer σ τ) (index : Nat) (v : Document σ) : Path → Observed σ τ (Document σ)
  | [] => do
    o.tell ⟨index, none, .ended, v⟩
    return v
  | s :: rest => do
    o.tell ⟨index, some s, .applied s.action, v⟩
    match s.action with
    | .verbatim => return v
    | .leaf => v.field s.name
    | .root => visit o (index + 1) v rest
    | .descend =>
      let child ← v.field s.name
      visit o (index + 1) child rest
    | .fanOut =>
      let items ← s.elements v
      let found ← items.mapM fun item => visit o (index + 1) item rest
      return .array found

/-! ## Resolvers -/

/-- An observer and the state it has reached. -/
structure Resolver (σ τ : Type) where
  observer : Observer σ τ
  state : τ

namespace Resolver

/-- Resolves a path on a document, and gives the resolver to go on with. -/
def resolve (r : Resolver σ τ) (v : Document σ) (p : Path) :
    Attempt σ (Document σ) × Resolver σ τ :=
  let result := (visit r.observer 0 v p).run r.state
  (result.1, { r with state := result.2 })

/-- A resolver that watches nothing. -/
def plain : Resolver σ Unit := ⟨.silent, ()⟩

/-- A resolver that has recorded nothing yet. -/
def recording : Resolver σ (Array (Event σ)) := ⟨.recorder, #[]⟩

end Resolver

/-- Resolves a path on a document. -/
def Document.resolve (v : Document σ) (p : Path) : Attempt σ (Document σ) :=
  (Resolver.plain.resolve v p).1

/-- The steps that resolving takes, in order. -/
def Document.trace (v : Document σ) (p : Path) : List (Event σ) :=
  (Resolver.recording.resolve v p).2.state.toList

end PropertyPath
