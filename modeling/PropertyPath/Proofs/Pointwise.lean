import PropertyPath.Proofs.Collect
import PropertyPath.Resolve.Lemmas

/-!
# Resolving, position by position

A fan-out visits every element. A walk visits one: it follows the path from the document downwards
and takes, at each fan-out, the element that the next of its choices says.

## Mechanism

A result is an array of arrays, as deep as the path has fan-outs, and a list of choices is also a
position in it. `Agrees` compares the two ends of one list of choices: what the result holds there,
and what the walk comes to. Both inductions are on the path. At a fan-out the empty list of choices
sees the length of the array and each first choice sees one element.

* `resolve_eq_ok_iff_agrees` — the results are exactly the documents that agree with every walk
* `exists_stuck_of_resolve_eq_error` — a failure is met by some walk
* `resolve_pointwise` — a path resolves unless a walk gets stuck, and its result is pointwise right
-/

namespace PropertyPath

variable {σ : Type}

/-! ## Depth -/

/-- How deep the results of a path are nested: its array segments before the first literal. -/
def Path.fanOuts (p : Path) : Nat :=
  (p.takeWhile fun s => s.kind ≠ .literal).countP fun s => s.kind = .array

namespace Path

variable {s : Segment}

@[simp] theorem fanOuts_nil : fanOuts [] = 0 := rfl

theorem fanOuts_literal (h : s.kind = .literal) (rest : Path) : fanOuts (s :: rest) = 0 := by
  simp [fanOuts, h]

theorem fanOuts_object (h : s.kind = .object) (rest : Path) :
    fanOuts (s :: rest) = fanOuts rest := by
  simp [fanOuts, h]

theorem fanOuts_array (h : s.kind = .array) (rest : Path) :
    fanOuts (s :: rest) = fanOuts rest + 1 := by
  simp [fanOuts, h]

/-- In front of a path, segments without literals add their array segments. -/
theorem fanOuts_append {front : Path} (h : ∀ s ∈ front, s.kind ≠ .literal) (p : Path) :
    fanOuts (front ++ p) = (front.countP fun s => s.kind = .array) + fanOuts p := by
  rw [fanOuts, List.takeWhile_append_of_pos (by simpa using h), List.countP_append, fanOuts]

/-- Without literals every array segment counts. -/
theorem fanOuts_eq_countP {p : Path} (h : ∀ s ∈ p, s.kind ≠ .literal) :
    fanOuts p = p.countP fun s => s.kind = .array := by
  simpa using fanOuts_append h []

end Path

/-! ## Positions -/

namespace Document

/-- The value of a field, if there is one. -/
def child? (name : String) : Document σ → Option (Document σ)
  | object fields => fields.get? name
  | scalar _ | array _ => none

/-- What stands at a position inside nested arrays. -/
def at? : List Nat → Document σ → Option (Document σ)
  | [], v => some v
  | i :: position, array items => items[i]?.bind (at? position)
  | _ :: _, scalar _ | _ :: _, object _ => none

theorem at?_nil (v : Document σ) : at? [] v = some v := by
  cases v <;> rfl

theorem at?_cons_array (i : Nat) (position : List Nat) (items : List (Document σ)) :
    at? (i :: position) (array items) = items[i]?.bind (at? position) := rfl

theorem child?_eq_some_iff {v child : Document σ} {name : String} :
    v.child? name = some child ↔ v.field name = .ok child := by
  rw [field_eq_ok_iff]
  cases v <;> simp [child?]

theorem child?_eq_none_of_error {v : Document σ} {name : String} {e : ResolveError σ}
    (h : v.field name = .error e) : v.child? name = none := by
  cases hc : v.child? name with
  | none => rfl
  | some child => rw [child?_eq_some_iff.mp hc] at h; cases h

end Document

/-! ## Walks -/

/-- What a walk comes to. It stops at a value, waits for a choice among the elements of an array,
is outside when the element chosen does not exist, or is stuck at a lookup that has no answer. -/
inductive Walk (σ : Type) where
  | stopped (value : Document σ)
  | waiting (items : List (Document σ))
  | outside
  | stuck

/-- Follows a path to a single place, with a choice of an element for each fan-out. -/
def walk : Path → List Nat → Document σ → Walk σ
  | [], _, v => .stopped v
  | s :: rest, choices, v =>
    match s.kind with
    | .literal =>
      if s.hasName then
        match v.child? s.name with
        | some child => .stopped child
        | none => .stuck
      else .stopped v
    | .object =>
      if s.isRoot || !s.hasName then walk rest choices v
      else
        match v.child? s.name with
        | some child => walk rest choices child
        | none => .stuck
    | .array =>
      match if s.hasName then v.child? s.name else some v with
      | some (.array items) =>
        match choices with
        | [] => .waiting items
        | i :: choices =>
          match items[i]? with
          | some item => walk rest choices item
          | none => .outside
      | _ => .stuck

section Step

variable {s : Segment} {v : Document σ} (rest : Path) (choices : List Nat)

theorem walk_verbatim (h : s.action = .verbatim) : walk (s :: rest) choices v = .stopped v := by
  obtain ⟨hkind, hname⟩ := Segment.action_eq_verbatim_iff.mp h
  simp [walk, hkind, hname]

theorem walk_leaf {child : Document σ} (h : s.action = .leaf)
    (hchild : v.field s.name = .ok child) : walk (s :: rest) choices v = .stopped child := by
  obtain ⟨hkind, hname⟩ := Segment.action_eq_leaf_iff.mp h
  simp [walk, hkind, hname, Document.child?_eq_some_iff.mpr hchild]

theorem walk_leaf_error {e : ResolveError σ} (h : s.action = .leaf)
    (herr : v.field s.name = .error e) : walk (s :: rest) choices v = .stuck := by
  obtain ⟨hkind, hname⟩ := Segment.action_eq_leaf_iff.mp h
  simp [walk, hkind, hname, Document.child?_eq_none_of_error herr]

theorem walk_root (h : s.action = .root) : walk (s :: rest) choices v = walk rest choices v := by
  obtain ⟨hkind, hroot⟩ := Segment.action_eq_root_iff.mp h
  simp [walk, hkind, hroot]

theorem walk_descend {child : Document σ} (h : s.action = .descend)
    (hchild : v.field s.name = .ok child) :
    walk (s :: rest) choices v = walk rest choices child := by
  obtain ⟨hkind, hroot, hname⟩ := Segment.action_eq_descend_iff.mp h
  simp [walk, hkind, hroot, hname, Document.child?_eq_some_iff.mpr hchild]

theorem walk_descend_error {e : ResolveError σ} (h : s.action = .descend)
    (herr : v.field s.name = .error e) : walk (s :: rest) choices v = .stuck := by
  obtain ⟨hkind, hroot, hname⟩ := Segment.action_eq_descend_iff.mp h
  simp [walk, hkind, hroot, hname, Document.child?_eq_none_of_error herr]

/-- The array that a walk finds is the one whose elements are fanned out over. -/
theorem target_eq_some_iff {items : List (Document σ)} :
    (if s.hasName then v.child? s.name else some v) = some (.array items)
      ↔ s.elements v = .ok items := by
  cases hname : s.hasName with
  | true =>
    simp only [Segment.elements_named hname, if_true, Document.child?_eq_some_iff, bind_eq_ok_iff,
      Document.elements_eq_ok_iff, exists_eq_right]
  | false =>
    simp [Segment.elements_unnamed hname, Document.elements_eq_ok_iff]

theorem walk_fanOut_nil {items : List (Document σ)} (h : s.action = .fanOut)
    (hitems : s.elements v = .ok items) : walk (s :: rest) [] v = .waiting items := by
  simp [walk, Segment.action_eq_fanOut_iff.mp h, target_eq_some_iff.mpr hitems]

theorem walk_fanOut_cons {items : List (Document σ)} {item : Document σ} {i : Nat}
    (h : s.action = .fanOut) (hitems : s.elements v = .ok items) (hitem : items[i]? = some item) :
    walk (s :: rest) (i :: choices) v = walk rest choices item := by
  simp [walk, Segment.action_eq_fanOut_iff.mp h, target_eq_some_iff.mpr hitems, hitem]

theorem walk_fanOut_outside {items : List (Document σ)} {i : Nat} (h : s.action = .fanOut)
    (hitems : s.elements v = .ok items) (hitem : items[i]? = none) :
    walk (s :: rest) (i :: choices) v = .outside := by
  simp [walk, Segment.action_eq_fanOut_iff.mp h, target_eq_some_iff.mpr hitems, hitem]

theorem walk_fanOut_error {e : ResolveError σ} (h : s.action = .fanOut)
    (herr : s.elements v = .error e) : walk (s :: rest) choices v = .stuck := by
  have hnone : ∀ items, (if s.hasName then v.child? s.name else some v) ≠ some (.array items) := by
    intro items hitems
    rw [target_eq_some_iff.mp hitems] at herr
    cases herr
  -- no array is found, so the walk takes its last branch
  simp only [walk, Segment.action_eq_fanOut_iff.mp h]

end Step

/-! ## Agreement -/

/-- What a result of this depth holds at a position agrees with what the walk with these choices
comes to: the value at which it stopped, an array as long as the one where it waits, or nothing. -/
def Agrees (w : Document σ) (depth : Nat) (position : List Nat) : Walk σ → Prop
  | .stopped x => position.length = depth ∧ w.at? position = some x
  | .waiting items => position.length < depth ∧
      ∃ found, w.at? position = some (.array found) ∧ found.length = items.length
  | .outside => w.at? position = none
  | .stuck => False

/-- Below the first array, a result agrees with a walk when the element chosen does. -/
theorem agrees_array_cons_iff {found : List (Document σ)} {b : Document σ} {i : Nat}
    (hb : found[i]? = some b) (depth : Nat) (position : List Nat) (o : Walk σ) :
    Agrees (.array found) (depth + 1) (i :: position) o ↔ Agrees b depth position o := by
  have hat : (Document.array found).at? (i :: position) = b.at? position := by
    rw [Document.at?_cons_array, hb, Option.bind_some]
  cases o with
  | stopped x => simp [Agrees, hat]
  | waiting items => simp [Agrees, hat]
  | outside => simp [Agrees, hat]
  | stuck => simp [Agrees]

/-- An array agrees with the walks over the elements of another array when it is as long and each of
its elements agrees with the walks over the one at the same place. -/
theorem forall_agrees_fanOut_iff {s : Segment} {v w : Document σ} {items : List (Document σ)}
    (rest : Path) (depth : Nat) (h : s.action = .fanOut) (hitems : s.elements v = .ok items) :
    (∀ position, position.length ≤ depth + 1 →
        Agrees w (depth + 1) position (walk (s :: rest) position v)) ↔
      ∃ found, w = .array found ∧ List.Forall₂ (fun item b => ∀ position, position.length ≤ depth →
        Agrees b depth position (walk rest position item)) items found := by
  constructor
  · intro hall
    obtain ⟨hlt, found, hfound, hlen⟩ : Agrees w (depth + 1) [] (.waiting items) := by
      have hnil := hall [] (Nat.zero_le _)
      rwa [walk_fanOut_nil rest h hitems] at hnil
    obtain rfl : w = .array found := by simpa [Document.at?_nil] using hfound
    refine ⟨found, rfl, List.forall₂_of_length_eq_of_get hlen.symm ?_⟩
    intro i hi hi' position hpos
    have hcons := hall (i :: position) (Nat.succ_le_succ hpos)
    rw [walk_fanOut_cons rest position h hitems (List.getElem?_eq_getElem hi),
      agrees_array_cons_iff (List.getElem?_eq_getElem hi')] at hcons
    exact hcons
  · rintro ⟨found, rfl, hall⟩ position hpos
    cases position with
    | nil =>
      rw [walk_fanOut_nil rest h hitems]
      exact ⟨Nat.succ_pos _, found, Document.at?_nil _, hall.length_eq.symm⟩
    | cons i position =>
      rcases Nat.lt_or_ge i items.length with hi | hi
      · have hi' : i < found.length := hall.length_eq ▸ hi
        rw [walk_fanOut_cons rest position h hitems (List.getElem?_eq_getElem hi),
          agrees_array_cons_iff (List.getElem?_eq_getElem hi')]
        exact hall.get hi hi' position (Nat.le_of_succ_le_succ hpos)
      · have hi' : found.length ≤ i := hall.length_eq ▸ hi
        rw [walk_fanOut_outside rest position h hitems (List.getElem?_eq_none hi)]
        show (Document.array found).at? (i :: position) = none
        rw [Document.at?_cons_array, List.getElem?_eq_none hi', Option.bind_none]

theorem forall_agrees_stopped_iff {w x : Document σ} :
    (∀ position : List Nat, position.length ≤ 0 → Agrees w 0 position (.stopped x)) ↔ x = w := by
  constructor
  · intro hall
    obtain ⟨_, hx⟩ := hall [] (Nat.le_refl _)
    simpa [Document.at?_nil] using hx.symm
  · rintro rfl position hpos
    obtain rfl : position = [] := List.length_eq_zero_iff.mp (Nat.le_zero.mp hpos)
    exact ⟨rfl, Document.at?_nil _⟩

theorem not_forall_agrees_stuck {w : Document σ} {depth : Nat} :
    ¬ ∀ position : List Nat, position.length ≤ depth → Agrees w depth position .stuck :=
  fun hall => hall [] (Nat.zero_le _)

/-! ## Resolving -/

theorem collect_eq_ok_iff {x : Attempt σ (List (Document σ))} {w : Document σ} :
    (x >>= fun found => .ok (.array found)) = Except.ok w ↔
      ∃ found, w = .array found ∧ x = .ok found := by
  rw [bind_eq_ok_iff]
  constructor
  · rintro ⟨found, hfound, hw⟩
    exact ⟨found, (Except.ok.inj hw).symm, hfound⟩
  · rintro ⟨found, rfl, hfound⟩
    exact ⟨found, hfound, rfl⟩

theorem collect_eq_error_iff {x : Attempt σ (List (Document σ))} {e : ResolveError σ} :
    (x >>= fun found => .ok (.array found)) = Except.error (α := Document σ) e ↔
      x = .error e := by
  rw [bind_eq_error_iff]
  simp

/-- **The results of a path are the documents that agree with every walk.** -/
theorem resolve_eq_ok_iff_agrees (p : Path) : ∀ v w : Document σ, v.resolve p = .ok w ↔
    ∀ position, position.length ≤ p.fanOuts → Agrees w p.fanOuts position (walk p position v) := by
  induction p with
  | nil =>
    intro v w
    rw [Document.resolve_nil, Except.ok.injEq]
    exact forall_agrees_stopped_iff.symm
  | cons s rest ih =>
    intro v w
    cases h : s.action with
    | verbatim =>
      have hkind := (Segment.action_eq_verbatim_iff.mp h).1
      simp only [Document.resolve_verbatim h, walk_verbatim rest _ h, Path.fanOuts_literal hkind,
        forall_agrees_stopped_iff, Except.ok.injEq]
    | leaf =>
      have hkind := (Segment.action_eq_leaf_iff.mp h).1
      rw [Document.resolve_leaf h, Path.fanOuts_literal hkind]
      cases hf : v.field s.name with
      | ok child =>
        simp only [walk_leaf rest _ h hf, forall_agrees_stopped_iff, Except.ok.injEq]
      | error e =>
        simp only [walk_leaf_error rest _ h hf, not_forall_agrees_stuck, reduceCtorEq]
    | root =>
      have hkind := (Segment.action_eq_root_iff.mp h).1
      simp only [Document.resolve_root h, walk_root rest _ h, Path.fanOuts_object hkind, ih]
    | descend =>
      have hkind := (Segment.action_eq_descend_iff.mp h).1
      rw [Document.resolve_descend h, Path.fanOuts_object hkind]
      cases hf : v.field s.name with
      | ok child =>
        simp only [walk_descend rest _ h hf]
        exact ih child w
      | error e =>
        simp only [walk_descend_error rest _ h hf, not_forall_agrees_stuck, iff_false]
        intro hw
        cases hw
    | fanOut =>
      rw [Document.resolve_fanOut h, Path.fanOuts_array (Segment.action_eq_fanOut_iff.mp h)]
      cases he : s.elements v with
      | ok items =>
        -- by the induction hypothesis an element agrees with its walks when it is a result
        rw [forall_agrees_fanOut_iff rest (Path.fanOuts rest) h he]
        simp only [← ih, ← mapM_eq_ok_iff]
        exact collect_eq_ok_iff
      | error e =>
        simp only [walk_fanOut_error rest _ h he, not_forall_agrees_stuck, iff_false]
        intro hw
        cases hw

/-- A failure is met by some walk. -/
theorem exists_stuck_of_resolve_eq_error (p : Path) : ∀ (v : Document σ) (e : ResolveError σ),
    v.resolve p = .error e →
      ∃ choices, choices.length ≤ p.fanOuts ∧ walk p choices v = .stuck := by
  induction p with
  | nil => intro v e h; cases h
  | cons s rest ih =>
    intro v e herr
    cases h : s.action with
    | verbatim => rw [Document.resolve_verbatim h] at herr; cases herr
    | leaf =>
      rw [Document.resolve_leaf h] at herr
      exact ⟨[], Nat.zero_le _, walk_leaf_error rest [] h herr⟩
    | root =>
      rw [Document.resolve_root h] at herr
      obtain ⟨choices, hlen, hstuck⟩ := ih v e herr
      refine ⟨choices, ?_, by rw [walk_root rest choices h, hstuck]⟩
      rwa [Path.fanOuts_object (Segment.action_eq_root_iff.mp h).1]
    | descend =>
      rw [Document.resolve_descend h, bind_eq_error_iff] at herr
      rcases herr with hf | ⟨child, hf, herr⟩
      · exact ⟨[], Nat.zero_le _, walk_descend_error rest [] h hf⟩
      · obtain ⟨choices, hlen, hstuck⟩ := ih child e herr
        refine ⟨choices, ?_, by rw [walk_descend rest choices h hf, hstuck]⟩
        rwa [Path.fanOuts_object (Segment.action_eq_descend_iff.mp h).1]
    | fanOut =>
      rw [Document.resolve_fanOut h, bind_eq_error_iff] at herr
      rcases herr with he | ⟨items, he, herr⟩
      · exact ⟨[], Nat.zero_le _, walk_fanOut_error rest [] h he⟩
      · -- the choice is the place of the first element that fails
        rw [collect_eq_error_iff, mapM_eq_error_iff] at herr
        obtain ⟨before, item, after, rfl, _, hitem⟩ := herr
        obtain ⟨choices, hlen, hstuck⟩ := ih item e hitem
        have hget : (before ++ item :: after)[before.length]? = some item := by simp
        refine ⟨before.length :: choices, ?_, by
          rw [walk_fanOut_cons rest choices h he hget, hstuck]⟩
        rw [Path.fanOuts_array (Segment.action_eq_fanOut_iff.mp h)]
        exact Nat.succ_le_succ hlen

/-- **A path resolves unless some walk gets stuck, and every place of the result is right.** The
result is nested as deep as the path has fan-outs. At a position short of that depth it holds an
array as long as the one that the walk waits at, and at a position of that depth the value that the
walk stops at. Nothing else has all these places. -/
theorem resolve_pointwise (p : Path) (v : Document σ) :
    ((∃ w, v.resolve p = .ok w) ↔
      ∀ choices, choices.length ≤ p.fanOuts → walk p choices v ≠ .stuck) ∧
    ∀ w, v.resolve p = .ok w ↔
      ∀ position, position.length ≤ p.fanOuts →
        Agrees w p.fanOuts position (walk p position v) := by
  refine ⟨⟨?_, ?_⟩, resolve_eq_ok_iff_agrees p v⟩
  · rintro ⟨w, hw⟩ choices hlen hstuck
    have hagrees := (resolve_eq_ok_iff_agrees p v w).mp hw choices hlen
    rw [hstuck] at hagrees
    exact hagrees
  · intro hwalk
    cases hr : v.resolve p with
    | ok w => exact ⟨w, rfl⟩
    | error e =>
      obtain ⟨choices, hlen, hstuck⟩ := exists_stuck_of_resolve_eq_error p v e hr
      exact absurd hstuck (hwalk choices hlen)

end PropertyPath
