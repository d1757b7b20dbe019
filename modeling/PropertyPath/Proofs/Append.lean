import PropertyPath.Proofs.Lookups
import PropertyPath.Proofs.Nested

/-!
# One path after another

A path that runs into a literal stops there, and what is put after it is never reached. Any other
path can be continued: the continuation is resolved on every element of what the path finds, at the
depth of its fan-outs.

## Mechanism

The lookups of two paths in a row are the lookups of both, so the law is one of programs
(`run_append_of_ok`), and its induction has two instructions to deal with and not five actions. In
one go elements are finished one by one, in two goes all of them get through the first path before
any starts on the second. So the two may report different failures, but only below a fan-out.

* `lookups_append_of_literal`, `lookups_append` — the lookups of paths in a row
* `run_append_of_ok`, `exists_run_of_append`, `run_append_of_flat` — running programs in a row
* `resolve_append` — resolving paths in a row
-/

namespace PropertyPath

variable {σ : Type}

/-! ## Lookups in a row -/

namespace Path

/-- What is put after a literal is not looked up. -/
theorem lookups_append_of_literal {p : Path} (h : ∃ s ∈ p, s.kind = .literal) (q : Path) :
    lookups (p ++ q) = lookups p := by
  induction p with
  | nil => simp at h
  | cons s rest ih =>
    rw [List.cons_append, lookups, lookups]
    cases hkind : s.kind with
    | literal => rfl
    | object => rw [ih (by simpa [hkind] using h)]
    | array => rw [ih (by simpa [hkind] using h)]

/-- Without a literal, one path is looked up after the other. -/
theorem lookups_append {p : Path} (h : ∀ s ∈ p, s.kind ≠ .literal) (q : Path) :
    lookups (p ++ q) = lookups p ++ lookups q := by
  induction p with
  | nil => rfl
  | cons s rest ih =>
    obtain ⟨hs, hrest⟩ := List.forall_mem_cons.mp h
    rw [List.cons_append, lookups, lookups, ih hrest]
    cases hkind : s.kind with
    | literal => exact absurd hkind hs
    | object => dsimp only; split <;> rfl
    | array => dsimp only; split <;> rfl

/-- A path goes through as many arrays as it has fan-outs. -/
theorem count_each_lookups (p : Path) : p.lookups.count .each = p.fanOuts := by
  induction p with
  | nil => rfl
  | cons s rest ih =>
    rw [lookups]
    cases hkind : s.kind with
    | literal => rw [fanOuts_literal hkind]; dsimp only; split <;> rfl
    | object => rw [fanOuts_object hkind, ← ih]; dsimp only; split <;> simp
    | array => rw [fanOuts_array hkind, ← ih]; dsimp only; split <;> simp

end Path

/-! ## Programs in a row -/

namespace Lookup

/-- Where the first program gets through, the second runs on the elements of its result. -/
theorem run_append_of_ok (a b : List Lookup) : ∀ v u : Document σ, run a v = .ok u →
    run (a ++ b) v = u.traverseAt (run b) (a.count .each) := by
  induction a with
  | nil =>
    intro v u h
    cases h
    rfl
  | cons i rest ih =>
    intro v u h
    cases i with
    | field name =>
      rw [run_field, bind_eq_ok_iff] at h
      obtain ⟨child, hchild, hu⟩ := h
      rw [List.cons_append, run_field, hchild, List.count_cons_of_ne (by simp)]
      exact ih child u hu
    | each =>
      rw [run_each, bind_eq_ok_iff] at h
      obtain ⟨items, hitems, h⟩ := h
      obtain ⟨found, rfl, hfound⟩ := collect_eq_ok_iff.mp h
      rw [List.cons_append, run_each, hitems, List.count_cons_self, Document.traverseAt_array,
        ← mapM_congr_of_forall₂ ((mapM_eq_ok_iff.mp hfound).imp ih)]
      rfl

/-- Where both programs get through, the first does. -/
theorem exists_run_of_append (a b : List Lookup) : ∀ v w : Document σ, run (a ++ b) v = .ok w →
    ∃ u, run a v = .ok u := by
  induction a with
  | nil => exact fun v _ _ => ⟨v, rfl⟩
  | cons i rest ih =>
    intro v w h
    cases i with
    | field name =>
      rw [List.cons_append, run_field, bind_eq_ok_iff] at h
      obtain ⟨child, hchild, hw⟩ := h
      obtain ⟨u, hu⟩ := ih child w hw
      exact ⟨u, by rw [run_field, hchild]; exact hu⟩
    | each =>
      rw [List.cons_append, run_each, bind_eq_ok_iff] at h
      obtain ⟨items, hitems, h⟩ := h
      obtain ⟨found, rfl, hfound⟩ := collect_eq_ok_iff.mp h
      -- every element gets through the first program, so all of them are collected
      obtain ⟨inner, hinner⟩ : ∃ inner, items.mapM (run rest) = .ok inner :=
        exists_mapM_eq_ok_iff.mpr fun item hitem => by
          obtain ⟨w, hw⟩ := exists_mapM_eq_ok_iff.mp ⟨found, hfound⟩ item hitem
          exact ih item w hw
      refine ⟨.array inner, ?_⟩
      rw [run_each, hitems]
      exact collect_eq_ok_iff.mpr ⟨inner, rfl, hinner⟩

/-- A program that goes through no array leads to one value, for the second one to go on with. -/
theorem run_append_of_flat {a : List Lookup} (h : a.count .each = 0) (b : List Lookup) :
    ∀ v : Document σ, run (a ++ b) v = run a v >>= run b := by
  induction a with
  | nil => exact fun v => rfl
  | cons i rest ih =>
    intro v
    cases i with
    | field name =>
      rw [List.count_cons_of_ne (by simp)] at h
      rw [List.cons_append, run_field, run_field]
      cases v.field name with
      | ok child => exact ih h child
      | error e => rfl
    | each => simp at h

end Lookup

/-! ## Paths in a row -/

section Continued

variable {p : Path} (h : ∀ s ∈ p, s.kind ≠ .literal) (q : Path) {v : Document σ}

include h

theorem resolve_append_eq_run (v : Document σ) :
    v.resolve (p ++ q) = Lookup.run (p.lookups ++ q.lookups) v := by
  rw [resolve_eq_run, Path.lookups_append h]

/-- What a path finds is gone through by the path that continues it. -/
theorem resolve_append_of_ok {u : Document σ} (hu : v.resolve p = .ok u) :
    v.resolve (p ++ q) = u.traverseAt (fun x => x.resolve q) p.fanOuts := by
  have hq : (fun x : Document σ => x.resolve q) = Lookup.run q.lookups :=
    funext (resolve_eq_run q)
  rw [resolve_eq_run] at hu
  rw [resolve_append_eq_run h, Lookup.run_append_of_ok _ _ v u hu, Path.count_each_lookups, hq]

/-- Where a longer path gets through, its beginning does. -/
theorem exists_resolve_of_append {w : Document σ} (hw : v.resolve (p ++ q) = .ok w) :
    ∃ u, v.resolve p = .ok u := by
  rw [resolve_append_eq_run h] at hw
  rw [resolve_eq_run]
  exact Lookup.exists_run_of_append _ _ v w hw

/-- Without fan-outs a failure stays as it is. -/
theorem resolve_append_of_flat (hflat : p.fanOuts = 0) {e : ResolveError σ}
    (he : v.resolve p = .error e) : v.resolve (p ++ q) = .error e := by
  rw [← Path.count_each_lookups] at hflat
  rw [resolve_eq_run] at he
  rw [resolve_append_eq_run h, Lookup.run_append_of_flat hflat, he]
  rfl

/-- Where a path fails, so does any longer one, and in the same way when there is no fan-out. -/
theorem exists_error_of_append {e : ResolveError σ} (he : v.resolve p = .error e) :
    ∃ e', v.resolve (p ++ q) = .error e' ∧ (p.fanOuts = 0 → e' = e) := by
  cases hr : v.resolve (p ++ q) with
  | ok w =>
    obtain ⟨u, hu⟩ := exists_resolve_of_append h q hr
    rw [hu] at he
    cases he
  | error e' =>
    refine ⟨e', rfl, fun hflat => ?_⟩
    rw [resolve_append_of_flat h q hflat he] at hr
    exact (Except.error.inj hr).symm

end Continued

/-- **One path after another.** What stands after a literal is not reached. A path without literals
that finds something is continued on every element of it, from left to right, at the depth of the
fan-outs; the first element to fail is the failure of all. If the path fails itself, then so does
the longer one, and in the same way when there is no fan-out. So both succeed together. -/
theorem resolve_append (p q : Path) (v : Document σ) :
    ((∃ s ∈ p, s.kind = .literal) → v.resolve (p ++ q) = v.resolve p) ∧
    ((∀ s ∈ p, s.kind ≠ .literal) →
      let depth := p.countP fun s => s.kind = .array
      (∀ u, v.resolve p = .ok u → u.Nested depth ∧
        v.resolve (p ++ q) = u.traverseAt (fun x => x.resolve q) depth ∧
        ∀ e, v.resolve (p ++ q) = .error e ↔
          ∃ before x after, u.elementsAt depth = before ++ x :: after ∧
            (∀ y ∈ before, ∃ z, y.resolve q = .ok z) ∧ x.resolve q = .error e) ∧
      (∀ e, v.resolve p = .error e →
        ∃ e', v.resolve (p ++ q) = .error e' ∧ (depth = 0 → e' = e)) ∧
      ∀ w, v.resolve (p ++ q) = .ok w ↔
        ∃ u, v.resolve p = .ok u ∧ u.traverseAt (fun x => x.resolve q) depth = .ok w) := by
  refine ⟨fun h => ?_, fun h => ?_⟩
  · rw [resolve_eq_run, resolve_eq_run, Path.lookups_append_of_literal h]
  · rw [← Path.fanOuts_eq_countP h]
    refine ⟨fun u hu => ⟨Document.resolve_nested p v u hu, ?_, fun e => ?_⟩, fun e he => ?_,
      fun w => ⟨fun hw => ?_, ?_⟩⟩
    · exact resolve_append_of_ok h q hu
    · rw [resolve_append_of_ok h q hu, Document.traverseAt_eq_error_iff]
    · cases hr : v.resolve (p ++ q) with
      | ok w =>
        obtain ⟨u, hu⟩ := exists_resolve_of_append h q hr
        rw [hu] at he
        cases he
      | error e' =>
        refine ⟨e', rfl, fun hflat => ?_⟩
        rw [resolve_append_of_flat h q hflat he] at hr
        exact (Except.error.inj hr).symm
    · obtain ⟨u, hu⟩ := exists_resolve_of_append h q hw
      exact ⟨u, hu, by rw [← resolve_append_of_ok h q hu, hw]⟩
    · rintro ⟨u, hu, hw⟩
      rw [resolve_append_of_ok h q hu, hw]

/-- A fan-out that is continued, and one where the longer path fails earlier, on an element that the
shorter one gets through. -/
theorem resolve_append_fanOut :
    (Document.array [.single "a" Value.null, .single "a" (Value.ofBool true)]).resolve
      ([.of "" .array] ++ [.of "a" .literal]) = .ok (.array [Value.null, Value.ofBool true]) ∧
    ∃ e, (Document.array [.single "a" Value.null, .object .nil]).resolve
        ([.of "" .array, .of "a" .object] ++ [.of "b" .literal]) = .error e ∧
      e ≠ .missingField "a" (.object .nil) := by
  refine ⟨(((resolve_append [.of "" .array] [.of "a" .literal] _).2 (by decide)).1 _ rfl).2.1.trans
    rfl, ?_⟩
  obtain ⟨e, he, _⟩ := ((resolve_append [.of "" .array, .of "a" .object] [.of "b" .literal]
    (.array [.single "a" Value.null, .object .nil])).2 (by decide)).2.1
      (.missingField "a" (.object .nil)) rfl
  exact ⟨e, he, fun h => absurd (h ▸ he) (by decide)⟩

end PropertyPath
