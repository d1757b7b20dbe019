/-!
# Bindings in key order

A finite map from strings to values, kept as a chain whose keys strictly ascend by code point.
The order is part of the type, so a map has exactly one chain: two maps are the same map when they
are equal, no key occurs twice, and whatever is listed is listed in key order.

## Mechanism

A chain is indexed by the bound that its keys lie above. `Fields` is a chain without a bound.
The rest of a chain is bounded by the key before it, which is why no step needs to look back.
-/

namespace PropertyPath

/-- The key lies above the bound; every key does when there is no bound. -/
inductive Above : Option String → String → Prop where
  | unbounded {key : String} : Above none key
  | after {bound key : String} (lt : bound < key) : Above (some bound) key

instance Above.decidable : (bound : Option String) → (key : String) → Decidable (Above bound key)
  | none, _ => .isTrue .unbounded
  | some bound, key =>
    if lt : bound < key then .isTrue (.after lt) else .isFalse fun | .after h => lt h

/-- Bindings whose keys strictly ascend and all lie above a bound. -/
inductive Bindings (α : Type) : Option String → Type where
  | nil {bound : Option String} : Bindings α bound
  | cons {bound : Option String} (key : String) (above : Above bound key) (value : α)
      (rest : Bindings α (some key)) : Bindings α bound

/-- A map from strings. -/
abbrev Fields (α : Type) := Bindings α none

namespace Bindings

variable {α : Type} {bound : Option String}

/-! ## Reading -/

/-- The value bound to a key. -/
def get? (key : String) {bound : Option String} : Bindings α bound → Option α
  | nil => none
  | cons k _ value rest => if key = k then some value else rest.get? key

/-- The bindings in key order. -/
def toList {bound : Option String} : Bindings α bound → List (String × α)
  | nil => []
  | cons key _ value rest => (key, value) :: rest.toList

/-- The keys in ascending order. -/
def keys (fields : Bindings α bound) : List String := fields.toList.map Prod.fst

/-- The number of keys. -/
def size (fields : Bindings α bound) : Nat := fields.toList.length

/-! ## Writing -/

theorem above_of_ne {key other : String} (hne : ¬ key = other) (hlt : ¬ key < other) :
    Above (some other) key :=
  .after (String.not_le.1 fun hle => hne (String.le_antisymm hle (String.not_lt.1 hlt)))

/-- Binds a key, in place of what it was bound to before. -/
def insert (key : String) (value : α) {bound : Option String} (above : Above bound key) :
    Bindings α bound → Bindings α bound
  | nil => cons key above value nil
  | cons k hk v rest =>
    if heq : key = k then cons k hk value rest
    else if hlt : key < k then cons key above value (cons k (.after hlt) v rest)
    else cons k hk v (rest.insert key value (above_of_ne heq hlt))

/-- Binds a key in a map. -/
def set (fields : Fields α) (key : String) (value : α) : Fields α :=
  fields.insert key value .unbounded

/-- The map that a list of writes leaves behind: the last write to a key stays. -/
def ofList (writes : List (String × α)) : Fields α :=
  writes.foldl (fun fields write => fields.set write.1 write.2) nil

end Bindings

end PropertyPath
