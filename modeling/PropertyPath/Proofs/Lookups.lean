import PropertyPath.Bindings.Lemmas
import PropertyPath.Proofs.Collect
import PropertyPath.Proofs.Image
import PropertyPath.Resolve.Lemmas

/-!
# Paths as lookups

All that a path does is look up fields and go through arrays. `Path.lookups` writes this down as a
program of two instructions. Segments that do nothing leave no trace in it, and a named array
segment is two instructions.

* `resolve_eq_run` — resolving a path is running its lookups, failures included
* `run_injective` — different programs are told apart by some document
* `resolve_full_abstraction` — so two paths do the same on every document exactly when their lookups
  are the same

The document that tells two programs apart is built along their common beginning: a field is wrapped
in an object that has just this field, and a fan-out in an array of one element. Where the programs
part, an empty object or an empty array is enough.
-/

namespace PropertyPath

variable {σ : Type}

/-! ## Programs -/

/-- An instruction: look up a field, or go on with every element of an array. -/
inductive Lookup where
  | field (name : String)
  | each
  deriving DecidableEq

/-- The lookups of a path. What follows the first literal is dropped. -/
def Path.lookups : Path → List Lookup
  | [] => []
  | s :: rest =>
    match s.kind with
    | .literal => if s.hasName then [.field s.name] else []
    | .object => if s.isRoot || !s.hasName then lookups rest else .field s.name :: lookups rest
    | .array => if s.hasName then .field s.name :: .each :: lookups rest else .each :: lookups rest

namespace Lookup

/-- Runs a program on a document. The first failure is the outcome. -/
def run : List Lookup → Document σ → Attempt σ (Document σ)
  | [], v => .ok v
  | field name :: rest, v =>
    match v with
    | .object fields =>
      match fields.get? name with
      | some child => run rest child
      | none => .error (.missingField name v)
    | .scalar _ | .array _ => .error (.mismatch .object v)
  | each :: rest, v =>
    match v with
    | .array items => do
      let found ← items.mapM (run rest)
      return .array found
    | .scalar _ | .object _ => .error (.mismatch .array v)

theorem run_nil (v : Document σ) : run [] v = .ok v := rfl

theorem run_field (name : String) (rest : List Lookup) (v : Document σ) :
    run (field name :: rest) v = v.field name >>= run rest := by
  cases v with
  | object fields =>
    cases h : fields.get? name <;>
      simp [run, Document.field, Document.fields?, h, bind, Except.bind]
  | scalar _ => rfl
  | array _ => rfl

theorem run_each (rest : List Lookup) (v : Document σ) :
    run (each :: rest) v
      = v.elements >>= fun items => items.mapM (run rest) >>= fun found => .ok (.array found) := by
  cases v <;> rfl

end Lookup

/-! ## From paths -/

section Step

variable {s : Segment} (rest : Path)

theorem lookups_verbatim (h : s.action = .verbatim) : Path.lookups (s :: rest) = [] := by
  obtain ⟨hkind, hname⟩ := Segment.action_eq_verbatim_iff.mp h
  simp [Path.lookups, hkind, hname]

theorem lookups_leaf (h : s.action = .leaf) : Path.lookups (s :: rest) = [.field s.name] := by
  obtain ⟨hkind, hname⟩ := Segment.action_eq_leaf_iff.mp h
  simp [Path.lookups, hkind, hname]

theorem lookups_root (h : s.action = .root) : Path.lookups (s :: rest) = Path.lookups rest := by
  obtain ⟨hkind, hroot⟩ := Segment.action_eq_root_iff.mp h
  simp [Path.lookups, hkind, hroot]

theorem lookups_descend (h : s.action = .descend) :
    Path.lookups (s :: rest) = .field s.name :: Path.lookups rest := by
  obtain ⟨hkind, hroot, hname⟩ := Segment.action_eq_descend_iff.mp h
  simp [Path.lookups, hkind, hroot, hname]

theorem lookups_fanOut (h : s.action = .fanOut) :
    Path.lookups (s :: rest)
      = if s.hasName then .field s.name :: .each :: Path.lookups rest
        else .each :: Path.lookups rest := by
  simp only [Path.lookups, Segment.action_eq_fanOut_iff.mp h]

end Step

/-- **Resolving a path is running its lookups.** -/
theorem resolve_eq_run (p : Path) : ∀ v : Document σ, v.resolve p = Lookup.run p.lookups v := by
  induction p with
  | nil => intro v; rfl
  | cons s rest ih =>
    intro v
    have hrest : (fun w : Document σ => w.resolve rest) = Lookup.run (Path.lookups rest) :=
      funext ih
    cases h : s.action with
    | verbatim => rw [Document.resolve_verbatim h, lookups_verbatim rest h, Lookup.run_nil]
    | leaf =>
      rw [Document.resolve_leaf h, lookups_leaf rest h, Lookup.run_field]
      cases v.field s.name <;> rfl
    | root => rw [Document.resolve_root h, lookups_root rest h, ih]
    | descend =>
      rw [Document.resolve_descend h, lookups_descend rest h, Lookup.run_field, hrest]
    | fanOut =>
      rw [Document.resolve_fanOut h, lookups_fanOut rest h, hrest]
      cases hname : s.hasName with
      | true =>
        rw [if_pos rfl, Lookup.run_field, Segment.elements_named hname]
        -- both sides look up the field first, and agree on what comes after
        cases hf : v.field s.name with
        | ok target => exact (Lookup.run_each _ target).symm
        | error e => rfl
      | false =>
        rw [if_neg Bool.false_ne_true, Lookup.run_each, Segment.elements_unnamed hname]

/-- A path looks up no field without a name. -/
theorem name_ne_empty_of_mem_lookups (p : Path) {name : String}
    (h : Lookup.field name ∈ p.lookups) : name ≠ "" := by
  induction p with
  | nil => cases h
  | cons s rest ih =>
    cases ha : s.action with
    | verbatim => rw [lookups_verbatim rest ha] at h; cases h
    | leaf =>
      rw [lookups_leaf rest ha, List.mem_singleton] at h
      cases h
      exact Segment.hasName_eq_true_iff.mp (Segment.action_eq_leaf_iff.mp ha).2
    | root => rw [lookups_root rest ha] at h; exact ih h
    | descend =>
      rw [lookups_descend rest ha, List.mem_cons] at h
      rcases h with h | h
      · cases h
        exact Segment.hasName_eq_true_iff.mp (Segment.action_eq_descend_iff.mp ha).2.2
      · exact ih h
    | fanOut =>
      rw [lookups_fanOut rest ha] at h
      split at h
      · next hname =>
        rcases List.mem_cons.mp h with h | h
        · cases h
          exact Segment.hasName_eq_true_iff.mp hname
        · exact ih (by simpa using h)
      · exact ih (by simpa using h)

/-! ## Telling programs apart -/

/-- An object with one field. -/
def Document.single (name : String) (child : Document σ) : Document σ :=
  .object (Bindings.set .nil name child)

theorem Document.field_single (name : String) (child : Document σ) :
    (Document.single name child).field name = .ok child := by
  have hget : (Bindings.set .nil name child).get? name = some child := by
    rw [Bindings.get?_set, if_pos rfl]
  exact Document.field_eq_ok_iff.mpr ⟨_, rfl, hget⟩

namespace Lookup

/-- Running on an object with just the field asked for goes on from that field. -/
theorem run_field_single (name : String) (rest : List Lookup) (child : Document σ) :
    run (field name :: rest) (.single name child) = run rest child := by
  rw [run_field, Document.field_single]
  rfl

/-- Running on an array of one element wraps the outcome of that element. -/
theorem run_each_singleton (rest : List Lookup) (child : Document σ) :
    run (each :: rest) (.array [child]) = (run rest child).map fun w => .array [w] := by
  rw [run_each]
  cases h : run rest child <;>
    simp [Document.elements, Document.items?, h, bind, Except.bind, pure, Except.pure, Except.map]

theorem map_singleton_injective {x y : Attempt σ (Document σ)}
    (h : x.map (fun w => Document.array [w]) = y.map fun w => Document.array [w]) : x = y := by
  cases x <;> cases y <;> simp_all [Except.map]

/-- A program that does anything fails on some document. -/
theorem exists_run_cons_error (i : Lookup) (rest : List Lookup) :
    ∃ (v : Document σ) (e : ResolveError σ), run (i :: rest) v = .error e := by
  cases i with
  | field name => exact ⟨.array [], .mismatch .object (.array []), rfl⟩
  | each => exact ⟨.object .nil, .mismatch .array (.object .nil), rfl⟩

/-- **Programs with the same outcomes are the same.** -/
theorem run_injective {p q : List Lookup} (h : ∀ v : Document σ, run p v = run q v) : p = q := by
  induction p generalizing q with
  | nil =>
    cases q with
    | nil => rfl
    | cons j rest' =>
      obtain ⟨v, e, herr⟩ := exists_run_cons_error (σ := σ) j rest'
      have hv := h v
      rw [herr, run_nil] at hv
      cases hv
  | cons i rest ih =>
    cases q with
    | nil =>
      obtain ⟨v, e, herr⟩ := exists_run_cons_error (σ := σ) i rest
      have hv := h v
      rw [herr, run_nil] at hv
      cases hv
    | cons j rest' =>
      -- the empty object tells the first instructions apart
      have hempty := h (.object .nil)
      cases i with
      | field name =>
        cases j with
        | field name' =>
          obtain rfl : name = name' := by simpa [run] using hempty
          have hrest : rest = rest' := ih fun child => by
            rw [← run_field_single name rest child, h, run_field_single]
          rw [hrest]
        | each => cases hempty
      | each =>
        cases j with
        | field name' => cases hempty
        | each =>
          have hrest : rest = rest' := ih fun child => map_singleton_injective (by
            rw [← run_each_singleton rest child, h, run_each_singleton])
          rw [hrest]

end Lookup

/-! ## Paths that do the same -/

/-- Two segments that differ in attributes only, and not in whether an object segment is a root. -/
structure Segment.SameStep (s t : Segment) : Prop where
  name : s.name = t.name
  kind : s.kind = t.kind
  root : s.kind = .object → s.isRoot = t.isRoot

namespace Path

/-- Attributes count only where they make an object segment a root. -/
theorem lookups_eq_of_sameStep {p q : Path} (h : List.Forall₂ Segment.SameStep p q) :
    p.lookups = q.lookups := by
  induction h with
  | nil => rfl
  | @cons s t p q hst _ ih =>
    have hname : s.hasName = t.hasName := by rw [Segment.hasName, Segment.hasName, hst.name]
    rw [lookups, lookups, ← hst.kind, hname, hst.name, ih]
    cases hkind : s.kind with
    | literal => rfl
    | object => rw [hst.root hkind]
    | array => rfl

/-- Paths that end alike do alike, whatever stands in front of both. -/
theorem lookups_append_congr (front : Path) {p q : Path} (h : p.lookups = q.lookups) :
    lookups (front ++ p) = lookups (front ++ q) := by
  induction front with
  | nil => exact h
  | cons s front ih => rw [List.cons_append, List.cons_append, lookups, lookups, ih]

/-- A named fan-out is a step into the field and an unnamed fan-out. -/
theorem lookups_array (name : String) (rest : Path) :
    lookups (.of name .array :: rest) = lookups (.of name .object :: .of "" .array :: rest) := by
  by_cases hname : name = ""
  · subst hname
    rfl
  · have hobject : (Segment.of name .object).action = .descend :=
      Segment.action_eq_descend_iff.mpr ⟨rfl, rfl, Segment.hasName_eq_true_iff.mpr hname⟩
    rw [lookups_descend _ hobject, lookups_fanOut rest (Segment.action_eq_fanOut_iff.mpr rfl),
      if_pos (Segment.hasName_eq_true_iff.mpr hname)]
    rfl

/-- The root that a text brings along does nothing. -/
theorem lookups_ofChars (text : List Char) : (ofChars text).lookups = (body text).lookups := by
  rw [ofChars_eq_root_append]
  split
  · exact lookups_root _ (by decide)
  · rfl

/-- A marker behind a name does what it does behind a point. -/
theorem lookups_marker {name : String} (h : name.toList.getLast? ≠ some '\\') :
    (ofChars (escape name.toList ++ ['[', ']'])).lookups
      = (ofChars (escape name.toList ++ ['.', '[', ']'])).lookups := by
  have hplain : ∀ kind, Plain (.of name kind) := fun kind => ⟨rfl, fun _ => h⟩
  have harray : Body [.of name .array] := .last (by simp) (hplain .array)
  have hunnamed : Body [.of "" .array] := .last (by simp) ⟨rfl, by simp⟩
  have hobject : Body [.of name .object, .of "" .array] :=
    .cons (by simp) (hplain .object) hunnamed
  have hchars : bodyChars [.of name .array] = escape name.toList ++ ['[', ']'] := by
    simp [bodyChars, segmentChars]
  have hchars' : bodyChars [.of name .object, .of "" .array]
      = escape name.toList ++ ['.', '[', ']'] := by
    simp [bodyChars, segmentChars, escape]
  rw [← hchars, ← hchars', lookups_ofChars, lookups_ofChars, body_bodyChars harray,
    body_bodyChars hobject, lookups_array]

end Path

/-- **Paths are told apart by what they look up, and by nothing else.** Resolving is running the
lookups, which name no field by the empty string. Two paths have the same outcome on every document
exactly when their lookups are the same. So attributes count only where they make an object segment
a root, and a named fan-out, in a path or in its text, is a step into the field and a fan-out
there. -/
theorem resolve_full_abstraction :
    (∀ (p : Path) (v : Document σ), v.resolve p = Lookup.run p.lookups v) ∧
    (∀ (p : Path) (name : String), .field name ∈ p.lookups → name ≠ "") ∧
    (∀ p q : Path, (∀ v : Document σ, v.resolve p = v.resolve q) ↔ p.lookups = q.lookups) ∧
    (∀ p q : Path, List.Forall₂ Segment.SameStep p q →
      ∀ v : Document σ, v.resolve p = v.resolve q) ∧
    (∀ (front rest : Path) (name : String) (v : Document σ),
      v.resolve (front ++ .of name .array :: rest)
        = v.resolve (front ++ .of name .object :: .of "" .array :: rest)) ∧
    ∀ name : String, name.toList.getLast? ≠ some '\\' → ∀ v : Document σ,
      v.resolve (Path.ofChars (Path.escape name.toList ++ ['[', ']']))
        = v.resolve (Path.ofChars (Path.escape name.toList ++ ['.', '[', ']'])) := by
  have hsame : ∀ p q : Path, p.lookups = q.lookups → ∀ v : Document σ,
      v.resolve p = v.resolve q := by
    intro p q h v
    rw [resolve_eq_run, resolve_eq_run, h]
  refine ⟨resolve_eq_run, fun p name => name_ne_empty_of_mem_lookups p, fun p q => ⟨?_, hsame p q⟩,
    fun p q h => hsame p q (Path.lookups_eq_of_sameStep h), ?_,
    fun name h => hsame _ _ (Path.lookups_marker h)⟩
  · intro h
    exact Lookup.run_injective fun v => by rw [← resolve_eq_run, h, resolve_eq_run]
  · exact fun front rest name =>
      hsame _ _ (Path.lookups_append_congr front (Path.lookups_array name rest))

end PropertyPath
