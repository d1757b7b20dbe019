import PropertyPath.Bindings.Basic

/-!
# Documents over a scalar type

A document is a scalar, an array of documents or an object of documents. Nothing here looks into a
scalar, so the scalar type is a parameter: in-memory values and JSON documents are the same trees
over two scalar types, and turning one into the other is `Document.map`.

## Recursion

A document holds its children in a list and in a chain of bindings. Each recursive function is
therefore three, one for documents, one for lists and one for bindings, and all are structural.
-/

namespace PropertyPath

/-- A tree of arrays and objects with scalars at its leaves. -/
inductive Document (σ : Type) where
  | scalar (value : σ)
  | array (items : List (Document σ))
  | object (fields : Bindings (Document σ) none)

/-- The three forms of a document, as path resolution tells them apart. -/
inductive Shape where
  | object
  | array
  | literal
  deriving DecidableEq

/-- The name of a shape. -/
def Shape.name : Shape → String
  | object => "object"
  | array => "array"
  | literal => "literal"

namespace Document

variable {σ ρ : Type}

/-- The shape of a document. -/
def shape : Document σ → Shape
  | scalar _ => .literal
  | array _ => .array
  | object _ => .object

/-- The elements of an array. -/
def items? : Document σ → Option (List (Document σ))
  | array items => some items
  | scalar _ | object _ => none

/-- The fields of an object. -/
def fields? : Document σ → Option (Fields (Document σ))
  | object fields => some fields
  | scalar _ | array _ => none

/-! ## Change of scalars -/

mutual

/-- Replaces every scalar and keeps all else. -/
def map (f : σ → ρ) : Document σ → Document ρ
  | scalar s => scalar (f s)
  | array items => array (mapItems f items)
  | object fields => object (mapFields f fields)

/-- Replaces every scalar below the elements of a list. -/
def mapItems (f : σ → ρ) : List (Document σ) → List (Document ρ)
  | [] => []
  | item :: rest => map f item :: mapItems f rest

/-- Replaces every scalar below the bindings of a chain. -/
def mapFields (f : σ → ρ) {bound : Option String} :
    Bindings (Document σ) bound → Bindings (Document ρ) bound
  | .nil => .nil
  | .cons key above value rest => .cons key above (map f value) (mapFields f rest)

end

/-! ## Equality up to a relation on scalars -/

mutual

/-- The same tree, with scalars compared by `same`. -/
def equivBy (same : σ → ρ → Bool) : Document σ → Document ρ → Bool
  | scalar s, scalar t => same s t
  | array items, array others => equivItems same items others
  | object fields, object others => equivFields same fields others
  | _, _ => false

/-- Equally many elements, the same position by position. -/
def equivItems (same : σ → ρ → Bool) : List (Document σ) → List (Document ρ) → Bool
  | [], [] => true
  | item :: rest, other :: others => equivBy same item other && equivItems same rest others
  | _, _ => false

/-- The same keys, bound to the same documents. -/
def equivFields (same : σ → ρ → Bool) {bound bound' : Option String} :
    Bindings (Document σ) bound → Bindings (Document ρ) bound' → Bool
  | .nil, .nil => true
  | .cons key _ value rest, .cons key' _ value' rest' =>
    key == key' && equivBy same value value' && equivFields same rest rest'
  | _, _ => false

end

/-! ## Equality -/

mutual

/-- Decides equality of documents. -/
def decEq [DecidableEq σ] : (a b : Document σ) → Decidable (a = b)
  | scalar s, scalar t => if h : s = t then .isTrue (by rw [h]) else .isFalse (by simp [h])
  | array items, array others =>
    match decEqItems items others with
    | .isTrue h => .isTrue (by rw [h])
    | .isFalse h => .isFalse (by simp [h])
  | object fields, object others =>
    match decEqFields fields others with
    | .isTrue h => .isTrue (by rw [h])
    | .isFalse h => .isFalse (by simp [h])
  | scalar _, array _ | scalar _, object _ | array _, scalar _ | array _, object _
  | object _, scalar _ | object _, array _ => .isFalse (by simp)

/-- Decides equality of lists of documents. -/
def decEqItems [DecidableEq σ] : (items others : List (Document σ)) → Decidable (items = others)
  | [], [] => .isTrue rfl
  | [], _ :: _ | _ :: _, [] => .isFalse (by simp)
  | item :: rest, other :: others =>
    match decEq item other, decEqItems rest others with
    | .isTrue h, .isTrue h' => .isTrue (by rw [h, h'])
    | .isFalse h, _ => .isFalse (by simp [h])
    | _, .isFalse h => .isFalse (by simp [h])

/-- Decides equality of bindings of documents. -/
def decEqFields [DecidableEq σ] {bound : Option String} :
    (fields others : Bindings (Document σ) bound) → Decidable (fields = others)
  | .nil, .nil => .isTrue rfl
  | .nil, .cons .. | .cons .., .nil => .isFalse (by simp)
  | .cons key _ value rest, .cons key' _ value' rest' =>
    if heq : key = key' then by
      subst heq
      exact match decEq value value', decEqFields rest rest' with
      | .isTrue h, .isTrue h' => .isTrue (by rw [h, h'])
      | .isFalse h, _ => .isFalse (by simp [h])
      | _, .isFalse h => .isFalse (by simp [h])
    else .isFalse (by simp [heq])

end

instance [DecidableEq σ] : DecidableEq (Document σ) := decEq

instance [DecidableEq σ] {bound : Option String} : DecidableEq (Bindings (Document σ) bound) :=
  decEqFields

instance [Inhabited σ] : Inhabited (Document σ) := ⟨scalar default⟩

end Document

end PropertyPath
