import PropertyPath.Segment

/-!
# Watching a path resolve

Resolving takes one step for each segment it applies, and one more where the segments run out. An
observer is told each step before it is taken, so that it also learns of a step that fails. It has a
state of its own and no way to answer, which is why it cannot change the outcome.
-/

namespace PropertyPath

/-! ## Steps -/

/-- What applying a segment does with the value. -/
inductive Action where
  | verbatim
  | leaf
  | root
  | descend
  | fanOut
  deriving DecidableEq

/-- What a segment does. A literal returns the value or one of its fields, a root or unnamed object
segment stays at the value, a named one enters a field, and an array segment fans out. -/
def Segment.action (s : Segment) : Action :=
  match s.kind with
  | .literal => if s.hasName then .leaf else .verbatim
  | .object => if s.isRoot || !s.hasName then .root else .descend
  | .array => .fanOut

/-- A step: a segment is applied, or the path has ended. -/
inductive Step where
  | ended
  | applied (action : Action)
  deriving DecidableEq

/-- The name of a step. -/
def Step.name : Step → String
  | ended => "end"
  | applied .verbatim => "verbatim"
  | applied .leaf => "leaf"
  | applied .root => "root"
  | applied .descend => "descend"
  | applied .fanOut => "fan-out"

/-- A step as an observer is told it: the position in the path, the segment there unless the path
has ended, the step, and the value it is about to be taken on. -/
structure Event (σ : Type) where
  index : Nat
  segment : Option Segment
  step : Step
  value : Document σ
  deriving DecidableEq

/-! ## Observers -/

/-- How a state changes when a step is told. -/
structure Observer (σ τ : Type) where
  onStep : τ → Event σ → τ

namespace Observer

variable {σ τ ρ : Type}

/-- Ignores every step. -/
def silent : Observer σ Unit := ⟨fun _ _ => ()⟩

/-- Keeps every step, in order. -/
def recorder : Observer σ (Array (Event σ)) := ⟨Array.push⟩

/-- The same observer, with its state kept inside a larger one. -/
def within (get : ρ → τ) (set : ρ → τ → ρ) (o : Observer σ τ) : Observer σ ρ :=
  ⟨fun state event => set state (o.onStep (get state) event)⟩

end Observer

end PropertyPath
