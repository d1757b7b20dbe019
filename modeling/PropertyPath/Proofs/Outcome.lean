import PropertyPath.Proofs.Pointwise

/-!
# How a path ends

The outcome of a path is that of its first segment, or comes from further down. The two inversions
say all there is to a success and to a failure, so that an induction on the path has one case for
each of their disjuncts.

* `resolve_cons_eq_ok_iff` — how a path succeeds
* `resolve_cons_eq_error_iff` — how a path fails
* `resolve_single_eq_error_iff` — how one segment fails
-/

namespace PropertyPath

variable {σ : Type} {s : Segment} {v : Document σ} {e : ResolveError σ}

namespace Document

/-! ## One segment -/

/-- With nothing left to resolve, a fan-out finds the elements themselves. -/
theorem mapM_resolve_nil (items : List (Document σ)) :
    items.mapM (fun item => item.resolve []) = .ok items :=
  mapM_eq_ok_iff.mpr (List.forall₂_same.mpr fun item _ => resolve_nil item)

/-- A segment fails when its access does. A literal without a name and a root have none. -/
theorem resolve_single_eq_error_iff : v.resolve [s] = .error e ↔
    (s.action = .leaf ∨ s.action = .descend) ∧ v.field s.name = .error e ∨
      s.action = .fanOut ∧ s.elements v = .error e := by
  cases h : s.action with
  | verbatim => simp [resolve_verbatim h]
  | leaf => simp [resolve_leaf h]
  | root => simp [resolve_root h]
  | descend =>
    rw [resolve_descend h, bind_eq_error_iff]
    simp
  | fanOut =>
    rw [resolve_fanOut h, bind_eq_error_iff]
    simp [collect_eq_error_iff, mapM_resolve_nil, -resolve_nil]

theorem resolve_single_root (h : s.action = .root) : v.resolve [s] = .ok v :=
  resolve_root h v []

theorem resolve_single_descend {child : Document σ} (h : s.action = .descend)
    (hchild : v.field s.name = .ok child) : v.resolve [s] = .ok child := by
  rw [resolve_descend h, hchild]
  rfl

theorem resolve_single_fanOut {items : List (Document σ)} (h : s.action = .fanOut)
    (hitems : s.elements v = .ok items) : v.resolve [s] = .ok (.array items) := by
  rw [resolve_fanOut h, hitems]
  exact collect_eq_ok_iff.mpr ⟨items, rfl, mapM_resolve_nil items⟩

/-! ## A segment and what is left -/

/-- **How a path succeeds.** A literal ends it. Otherwise what is left succeeds: on the same value,
on a field, or on every element. -/
theorem resolve_cons_eq_ok_iff {rest : Path} {w : Document σ} : v.resolve (s :: rest) = .ok w ↔
    s.action = .verbatim ∧ v = w ∨
    s.action = .leaf ∧ v.field s.name = .ok w ∨
    s.action = .root ∧ v.resolve rest = .ok w ∨
    s.action = .descend ∧ (∃ child, v.field s.name = .ok child ∧ child.resolve rest = .ok w) ∨
    s.action = .fanOut ∧ ∃ items found, s.elements v = .ok items ∧ w = .array found ∧
      List.Forall₂ (fun item b => item.resolve rest = .ok b) items found := by
  cases h : s.action with
  | verbatim => simp [resolve_verbatim h]
  | leaf => simp [resolve_leaf h]
  | root => simp [resolve_root h]
  | descend => simp [resolve_descend h, bind_eq_ok_iff]
  | fanOut =>
    rw [resolve_fanOut h, bind_eq_ok_iff]
    simp only [collect_eq_ok_iff, mapM_eq_ok_iff]
    simp

/-- **How a path fails.** Its first segment fails, or that one is passed and what is left fails: on
the same value, on a field, or on the first element that fails. -/
theorem resolve_cons_eq_error_iff {rest : Path} : v.resolve (s :: rest) = .error e ↔
    v.resolve [s] = .error e ∨
    s.action = .root ∧ v.resolve rest = .error e ∨
    s.action = .descend ∧ (∃ child, v.field s.name = .ok child ∧ child.resolve rest = .error e) ∨
    s.action = .fanOut ∧ ∃ before item after, s.elements v = .ok (before ++ item :: after) ∧
      (∀ x ∈ before, ∃ w, x.resolve rest = .ok w) ∧ item.resolve rest = .error e := by
  rw [resolve_single_eq_error_iff]
  cases h : s.action with
  | verbatim => simp [resolve_verbatim h]
  | leaf => simp [resolve_leaf h]
  | root => simp [resolve_root h]
  | descend =>
    rw [resolve_descend h, bind_eq_error_iff]
    simp
  | fanOut =>
    rw [resolve_fanOut h, bind_eq_error_iff]
    simp only [collect_eq_error_iff, mapM_eq_error_iff, exists_mapM_eq_ok_iff]
    constructor
    · rintro (he | ⟨items, he, before, item, after, rfl, hbefore, hitem⟩)
      · simp [he]
      · simp only [reduceCtorEq, or_self, false_and, true_and, false_or]
        exact .inr ⟨before, item, after, he, hbefore, hitem⟩
    · simp only [reduceCtorEq, or_self, false_and, true_and, false_or]
      rintro (he | ⟨before, item, after, he, hbefore, hitem⟩)
      · exact .inl he
      · exact .inr ⟨_, he, before, item, after, rfl, hbefore, hitem⟩

end Document

end PropertyPath
