import Mathlib.Algebra.GroupWithZero.Nat
import PropertyPath.Proofs.TraceOutcome

/-!
# The steps of a walk, in preorder

A walk is a tree. Each step leads on to some values, its children: a root step to the value that it
is taken on, a descent to a field, a fan-out to the elements of an array, and a terminal step to
nothing. The trace lists the tree in preorder. So what comes next is always the next child of the
innermost step that has one left, whether that step has just been told or many levels above.

## Mechanism

All actions are alike once their children are known (`steps_eq_cons`), so nothing below is proved
action by action. That a step resumes the walk is read off the steps before it alone: a step
encloses what is told after it as long as the positions stay above its own, and it has gone into as
many children as it has been followed by steps one position on.

* `continues_stepsAfter` — every step but the first goes into the next child of the innermost
  enclosing step with children left
* `level_steps` — a position has as many steps as the steps at the position before have
  children
* `trace_preorder` — both, action by action
-/

namespace PropertyPath

variable {σ : Type}

/-! ## Children -/

/-- The step that a segment gives rise to, or the end of the path. -/
def Step.ofSegment : Option Segment → Step
  | none => .ended
  | some s => .applied s.action

theorem Step.ofSegment_eq_ended_iff {segment : Option Segment} :
    ofSegment segment = .ended ↔ segment = none := by
  cases segment <;> simp [ofSegment]

/-- The values that a segment leads on to, in order. There are none where it fails. -/
def Segment.children (s : Segment) (v : Document σ) : List (Document σ) :=
  match s.action with
  | .verbatim | .leaf => []
  | .root => [v]
  | .descend =>
    match v.field s.name with
    | .ok child => [child]
    | .error _ => []
  | .fanOut =>
    match s.elements v with
    | .ok items => items
    | .error _ => []

/-- The values that a step leads on to, in order. -/
def Event.children (e : Event σ) : List (Document σ) :=
  match e.segment with
  | none => []
  | some s => s.children e.value

/-- The steps after the first: those of the children, one child after the other, up to the first
that fails. -/
def stepsAfter (index : Nat) (v : Document σ) : Path → List (Event σ)
  | [] => []
  | s :: rest =>
    (tried (fun child => child.resolve rest) (s.children v)).flatMap fun child =>
      steps (index + 1) child rest

/-- The first step of a walk. -/
def firstStep (index : Nat) (v : Document σ) (p : Path) : Event σ :=
  ⟨index, p.head?, .ofSegment p.head?, v⟩

@[simp] theorem index_firstStep (index : Nat) (v : Document σ) (p : Path) :
    (firstStep index v p).index = index := rfl

/-- **A walk is its first step and the walks of the children.** -/
theorem steps_eq_cons (index : Nat) (v : Document σ) (p : Path) :
    steps index v p = firstStep index v p :: stepsAfter index v p := by
  cases p with
  | nil => rfl
  | cons s rest =>
    show steps index v (s :: rest) = ⟨index, some s, .applied s.action, v⟩ :: _
    rw [stepsAfter, Segment.children]
    cases h : s.action with
    | verbatim => exact steps_verbatim index v rest h
    | leaf => exact steps_leaf index v rest h
    | root =>
      simp only [tried_singleton, List.flatMap_singleton]
      exact steps_root index v rest h
    | descend =>
      cases hf : v.field s.name with
      | ok child =>
        simp only [tried_singleton, List.flatMap_singleton]
        exact steps_descend index v rest h hf
      | error e => exact steps_descend_error index v rest h hf
    | fanOut =>
      cases he : s.elements v with
      | ok items => exact steps_fanOut index v rest h he
      | error e => exact steps_fanOut_error index v rest h he

/-- Where a path resolves, what is left of it resolves on all children. -/
theorem children_of_ok {s : Segment} {rest : Path} {v w : Document σ}
    (h : v.resolve (s :: rest) = .ok w) :
    ∀ child ∈ s.children v, ∃ u, child.resolve rest = .ok u := by
  rw [Segment.children]
  rcases Document.resolve_cons_eq_ok_iff.mp h with
    ⟨h, _⟩ | ⟨h, _⟩ | ⟨h, hw⟩ | ⟨h, child, hchild, hw⟩ | ⟨h, items, found, he, _, hfound⟩
  · simp [h]
  · simp [h]
  · simpa [h] using ⟨w, hw⟩
  · simpa [h, hchild] using ⟨w, hw⟩
  · simpa [h, he] using forall_ok_of_forall₂ hfound

theorem stepsAfter_of_ok {s : Segment} {rest : Path} {v w : Document σ}
    (h : v.resolve (s :: rest) = .ok w) (index : Nat) : stepsAfter index v (s :: rest)
      = (s.children v).flatMap fun child => steps (index + 1) child rest := by
  rw [stepsAfter, tried_of_ok (children_of_ok h)]

/-! ## Positions -/

theorem le_index_of_mem_steps {p : Path} {index : Nat} {v : Document σ} {e : Event σ}
    (h : e ∈ steps index v p) : index ≤ e.index := by
  obtain ⟨k, hindex, -⟩ := segment_of_mem_steps p index v e h
  omega

theorem lt_index_of_mem_stepsAfter {p : Path} {index : Nat} {v : Document σ} {e : Event σ}
    (h : e ∈ stepsAfter index v p) : index < e.index := by
  cases p with
  | nil => cases h
  | cons s rest =>
    obtain ⟨child, -, he⟩ := List.mem_flatMap.mp h
    exact le_index_of_mem_steps he

/-- No step is at a position after the first literal. -/
theorem index_le_of_mem_steps (p : Path) : ∀ (index : Nat) (v : Document σ) (e : Event σ),
    e ∈ steps index v p → e.index ≤ index + p.findIdx fun s => s.kind = .literal := by
  induction p with
  | nil =>
    intro index v e h
    rw [steps_nil, List.mem_singleton] at h
    simp [h]
  | cons s rest ih =>
    intro index v e h
    rcases mem_steps_cons h with rfl | ⟨hkind, x, hx⟩
    · exact Nat.le_add_right _ _
    · have hle := ih (index + 1) x e hx
      simp only [List.findIdx_cons, hkind, decide_false, cond_false]
      omega

/-- A step is the one that its segment gives rise to. -/
theorem step_of_mem_steps (p : Path) : ∀ (index : Nat) (v : Document σ) (e : Event σ),
    e ∈ steps index v p → e.step = .ofSegment e.segment := by
  induction p with
  | nil =>
    intro index v e h
    rw [steps_nil, List.mem_singleton] at h
    rw [h]
    rfl
  | cons s rest ih =>
    intro index v e h
    rcases mem_steps_cons h with rfl | ⟨-, x, hx⟩
    · rfl
    · exact ih (index + 1) x e hx

/-- A walk has one step at its first position. -/
theorem countP_steps_self (index : Nat) (v : Document σ) (p : Path) :
    (steps index v p).countP (fun e => e.index = index) = 1 := by
  have hafter : (stepsAfter index v p).countP (fun e => e.index = index) = 0 := by
    rw [List.countP_eq_zero]
    intro e he
    have hlt := lt_index_of_mem_stepsAfter he
    simp only [decide_eq_true_eq]
    omega
  rw [steps_eq_cons, List.countP_cons_of_pos (by simp), hafter]

/-- So walks in a row have as many there as they are. -/
theorem countP_flatMap_steps (index : Nat) (values : List (Document σ)) (p : Path) :
    (values.flatMap fun v => steps index v p).countP (fun e => e.index = index)
      = values.length := by
  induction values with
  | nil => rfl
  | cons v rest ih =>
    rw [List.flatMap_cons, List.countP_append, countP_steps_self, ih, List.length_cons,
      Nat.add_comm]

/-! ## Enclosing steps -/

/-- The step encloses all that has been told since. -/
def Event.Encloses (e : Event σ) (since : List (Event σ)) : Prop := ∀ x ∈ since, e.index < x.index

/-- The children of the step that have not been gone into, by what has been told since. -/
def Event.left (e : Event σ) (since : List (Event σ)) : List (Document σ) :=
  e.children.drop (since.countP fun x => x.index = e.index + 1)

/-- None of the steps that enclose all that comes after them has a child left. -/
def Finished : List (Event σ) → Prop
  | [] => True
  | e :: since => (e.Encloses since → e.left since = []) ∧ Finished since

/-- The step goes into the next child of the innermost step that encloses the end of the history and
has a child left. -/
def Resumes (history : List (Event σ)) (next : Event σ) : Prop :=
  ∃ before e since, history = before ++ e :: since ∧ e.Encloses since ∧ Finished since ∧
    next.index = e.index + 1 ∧ (e.left since).head? = some next.value

/-- Each of the steps resumes what is before it. -/
def Continues (history : List (Event σ)) : List (Event σ) → Prop
  | [] => True
  | next :: rest => Resumes history next ∧ Continues (history ++ [next]) rest

/-- A step that another one at the same position or before comes after encloses no end. -/
theorem Finished.append {events more : List (Event σ)}
    (h : ∀ e ∈ events, ∃ x ∈ more, x.index ≤ e.index) (hmore : Finished more) :
    Finished (events ++ more) := by
  induction events with
  | nil => exact hmore
  | cons e events ih =>
    obtain ⟨⟨x, hx, hle⟩, hevents⟩ := List.forall_mem_cons.mp h
    refine ⟨fun hencloses => ?_, ih hevents⟩
    have hlt := hencloses x (List.mem_append_right _ hx)
    omega

theorem Finished.children_eq_nil {events : List (Event σ)} {e : Event σ}
    (h : Finished (events ++ [e])) : e.children = [] := by
  induction events with
  | nil => exact h.1 fun x hx => absurd hx List.not_mem_nil
  | cons x events ih => exact ih h.2

/-- Walks in a row leave nothing when each of them does. -/
theorem finished_flatMap_steps {index : Nat} {p : Path} {values : List (Document σ)}
    (h : ∀ v ∈ values, Finished (steps index v p)) :
    Finished (values.flatMap fun v => steps index v p) := by
  induction values with
  | nil => exact trivial
  | cons v rest ih =>
    obtain ⟨hv, hrest⟩ := List.forall_mem_cons.mp h
    rw [List.flatMap_cons]
    cases rest with
    | nil => rwa [List.flatMap_nil, List.append_nil]
    | cons x rest =>
      refine Finished.append (fun e he => ⟨firstStep index x p, ?_, le_index_of_mem_steps he⟩)
        (ih hrest)
      rw [List.flatMap_cons, steps_eq_cons]
      exact List.mem_append_left _ List.mem_cons_self

/-- **A walk that gets through leaves no child.** -/
theorem finished_steps (p : Path) : ∀ (index : Nat) (v w : Document σ), v.resolve p = .ok w →
    Finished (steps index v p) := by
  induction p with
  | nil => exact fun index v w _ => ⟨fun _ => rfl, trivial⟩
  | cons s rest ih =>
    intro index v w hw
    rw [steps_eq_cons, stepsAfter_of_ok hw]
    refine ⟨fun _ => ?_, finished_flatMap_steps fun child hchild => ?_⟩
    · show (s.children v).drop (List.countP (fun x : Event σ => x.index = index + 1) _) = []
      rw [countP_flatMap_steps, List.drop_length]
    · obtain ⟨u, hu⟩ := children_of_ok hw child hchild
      exact ih (index + 1) child u hu

/-! ## What comes next -/

theorem Resumes.append_left {history : List (Event σ)} {next : Event σ}
    (h : Resumes history next) (more : List (Event σ)) : Resumes (more ++ history) next := by
  obtain ⟨before, e, since, rfl, h⟩ := h
  exact ⟨more ++ before, e, since, (List.append_assoc ..).symm, h⟩

theorem Continues.append_left {history events : List (Event σ)} (h : Continues history events)
    (more : List (Event σ)) : Continues (more ++ history) events := by
  induction events generalizing history with
  | nil => exact trivial
  | cons next rest ih =>
    refine ⟨h.1.append_left more, ?_⟩
    rw [List.append_assoc]
    exact ih h.2

theorem continues_append_iff {history events more : List (Event σ)} :
    Continues history (events ++ more) ↔
      Continues history events ∧ Continues (history ++ events) more := by
  induction events generalizing history with
  | nil => simp [Continues]
  | cons next rest ih => simp [Continues, ih, and_assoc]

/-- The walks of children continue that of their parent, each of them going into the next child. -/
theorem continues_children {rest : Path}
    (hrest : ∀ (index : Nat) (v : Document σ),
      Continues [firstStep index v rest] (stepsAfter index v rest))
    {e : Event σ} (remaining : List (Document σ)) : ∀ gone : List (Document σ),
      e.children = gone ++ remaining → (∀ child ∈ gone, ∃ w, child.resolve rest = .ok w) →
      Continues (e :: gone.flatMap fun child => steps (e.index + 1) child rest)
        ((tried (fun child => child.resolve rest) remaining).flatMap fun child =>
          steps (e.index + 1) child rest) := by
  induction remaining with
  | nil => exact fun _ _ _ => trivial
  | cons child remaining ih =>
    intro gone hchildren hgone
    -- the walk of the next child: its first step resumes, its other steps continue that one
    have hwalk : Continues (e :: gone.flatMap fun child => steps (e.index + 1) child rest)
        (steps (e.index + 1) child rest) := by
      rw [steps_eq_cons]
      refine ⟨⟨[], e, _, rfl, fun x hx => ?_, finished_flatMap_steps fun x hx => ?_, rfl, ?_⟩,
        (hrest _ child).append_left _⟩
      · obtain ⟨_, -, hx⟩ := List.mem_flatMap.mp hx
        exact le_index_of_mem_steps hx
      · obtain ⟨w, hw⟩ := hgone x hx
        exact finished_steps rest _ x w hw
      · rw [Event.left, countP_flatMap_steps, hchildren, List.drop_left]
        rfl
    rw [tried]
    cases hr : child.resolve rest with
    | error cause =>
      show Continues _ ([child].flatMap _)
      rw [List.flatMap_singleton]
      exact hwalk
    | ok w =>
      show Continues _ ((child :: tried _ remaining).flatMap _)
      rw [List.flatMap_cons, continues_append_iff]
      have hnext := ih (gone ++ [child]) (by rw [hchildren, List.append_assoc]; rfl)
        (List.forall_mem_append.mpr ⟨hgone, List.forall_mem_singleton.mpr ⟨w, hr⟩⟩)
      rw [List.flatMap_append, List.flatMap_singleton] at hnext
      exact ⟨hwalk, hnext⟩

/-- **Every step but the first goes into the next child of the innermost enclosing step with
children left.** -/
theorem continues_stepsAfter (p : Path) : ∀ (index : Nat) (v : Document σ),
    Continues [firstStep index v p] (stepsAfter index v p) := by
  induction p with
  | nil => exact fun _ _ => trivial
  | cons s rest ih =>
    intro index v
    exact continues_children ih (s.children v) [] rfl fun _ h => absurd h List.not_mem_nil

/-- What stands after some steps of a walk resumes them. -/
theorem resumes_of_steps {index : Nat} {v : Document σ} {p : Path} {front back : List (Event σ)}
    {e next : Event σ} (h : steps index v p = front ++ e :: next :: back) :
    Resumes (front ++ [e]) next := by
  have hcontinues := continues_stepsAfter p index v
  rw [steps_eq_cons] at h
  cases front with
  | nil =>
    obtain ⟨rfl, hafter⟩ := List.cons.inj h
    rw [hafter] at hcontinues
    exact hcontinues.1
  | cons x front =>
    rw [List.cons_append, List.append_cons] at h
    obtain ⟨rfl, hafter⟩ := List.cons.inj h
    rw [hafter, continues_append_iff] at hcontinues
    exact hcontinues.2.1

/-! ## What follows on a step -/

/-- A step with children is followed by a step into the first of them. -/
theorem Resumes.into_child {front : List (Event σ)} {e next : Event σ}
    (h : Resumes (front ++ [e]) next) {child : Document σ} {others : List (Document σ)}
    (hchildren : e.children = child :: others) :
    next.index = e.index + 1 ∧ next.value = child := by
  obtain ⟨before, f, since, hsplit, -, hfinished, hindex, hleft⟩ := h
  rcases List.eq_nil_or_concat since with rfl | ⟨since, x, rfl⟩
  · obtain ⟨-, hlast⟩ := List.append_inj' hsplit rfl
    obtain rfl : e = f := List.singleton_inj.mp hlast
    rw [Event.left, hchildren] at hleft
    exact ⟨hindex, (Option.some.inj hleft).symm⟩
  · -- a step further up is not resumed while the last one has children
    rw [List.concat_eq_append, ← List.cons_append, ← List.append_assoc] at hsplit
    obtain ⟨-, hlast⟩ := List.append_inj' hsplit rfl
    obtain rfl : e = x := List.singleton_inj.mp hlast
    rw [List.concat_eq_append] at hfinished
    rw [hfinished.children_eq_nil] at hchildren
    cases hchildren

/-- Only a fan-out has more than one child. -/
theorem Segment.elements_of_children {s : Segment} {v : Document σ}
    (h : 1 < (s.children v).length) : s.kind = .array ∧ s.elements v = .ok (s.children v) := by
  rw [children] at h ⊢
  cases ha : s.action with
  | verbatim => simp [ha] at h
  | leaf => simp [ha] at h
  | root => simp [ha] at h
  | descend => cases hf : v.field s.name <;> simp [ha, hf] at h
  | fanOut =>
    cases he : s.elements v with
    | ok items => exact ⟨action_eq_fanOut_iff.mp ha, rfl⟩
    | error e => simp [ha, he] at h

/-- **A step without children is followed by a step into the next element of the innermost fan-out
that encloses it and has elements left.** -/
theorem exists_enclosing_fanOut {index : Nat} {v : Document σ} {p : Path}
    {front back : List (Event σ)} {e next : Event σ}
    (h : steps index v p = front ++ e :: next :: back) (hnone : e.children = []) :
    ∃ before f since s items, front ++ [e] = before ++ f :: since ∧ f.segment = some s ∧
      s.kind = .array ∧ s.elements f.value = .ok items ∧ f.Encloses since ∧ Finished since ∧
      next.index = f.index + 1 ∧
      items[since.countP fun x => x.index = f.index + 1]? = some next.value := by
  obtain ⟨before, f, since, hsplit, hencloses, hfinished, hindex, hleft⟩ := resumes_of_steps h
  rw [Event.left, List.head?_drop] at hleft
  have hlt := (List.getElem?_eq_some_iff.mp hleft).1
  cases since with
  | nil =>
    obtain ⟨-, hlast⟩ := List.append_inj' hsplit rfl
    obtain rfl : e = f := List.singleton_inj.mp hlast
    rw [hnone] at hlt
    cases hlt
  | cons x since =>
    -- the step told next after `f` is in its first child, so one that has a child left has two
    have hfollowed : steps index v p = before ++ f :: x :: (since ++ next :: back) := by
      rw [h, List.append_cons, hsplit, List.append_assoc]
      rfl
    obtain ⟨child, others, hchildren⟩ := List.exists_cons_of_length_pos (Nat.zero_lt_of_lt hlt)
    have hx := ((resumes_of_steps hfollowed).into_child hchildren).1
    rw [List.countP_cons_of_pos (by simp [hx])] at hlt
    cases hs : f.segment with
    | none => simp [Event.children, hs] at hlt
    | some s =>
      have hself : f.children = s.children f.value := by rw [Event.children, hs]
      rw [hself] at hlt hleft
      obtain ⟨hkind, helements⟩ := Segment.elements_of_children (Nat.lt_of_le_of_lt
        (Nat.le_add_left 1 _) hlt)
      exact ⟨before, f, x :: since, s, _, hsplit, hs, hkind, helements, hencloses, hfinished,
        hindex, hleft⟩

/-- How a step follows on the steps before it, of which `e` is the last: after a root on the same
value, after a descent on the field, after a fan-out on the first element if there is one. And
where `e` leads on to nothing, on the next element of the innermost fan-out that encloses `e` and
has elements left. -/
structure Follows (front : List (Event σ)) (e next : Event σ) : Prop where
  root : e.step = .applied .root → next.index = e.index + 1 ∧ next.value = e.value
  descend : ∀ s, e.step = .applied .descend → e.segment = some s →
    next.index = e.index + 1 ∧ e.value.field s.name = .ok next.value
  fanOut : ∀ s, e.step = .applied .fanOut → e.segment = some s →
    ∃ items, s.elements e.value = .ok items ∧
      (items ≠ [] → next.index = e.index + 1 ∧ items.head? = some next.value)
  resumes : (e.step.isTerminal = true ∨
      ∃ s, e.step = .applied .fanOut ∧ e.segment = some s ∧ s.elements e.value = .ok []) →
    ∃ before f since s items, front ++ [e] = before ++ f :: since ∧ f.segment = some s ∧
      s.kind = .array ∧ s.elements f.value = .ok items ∧ f.Encloses since ∧ Finished since ∧
      next.index = f.index + 1 ∧
      items[since.countP fun x => x.index = f.index + 1]? = some next.value

/-- A step that another one follows gets through. -/
theorem passes_of_followed {index : Nat} {v : Document σ} {p : Path} {front back : List (Event σ)}
    {e next : Event σ} (h : steps index v p = front ++ e :: next :: back) : e.Passes := by
  have hmem : e ∈ (steps index v p).dropLast := by
    rw [h, List.dropLast_append_of_ne_nil (by simp), List.dropLast_cons_of_ne_nil (by simp)]
    simp
  cases hr : v.resolve p with
  | ok w => exact steps_of_ok p index v w hr e ((List.dropLast_sublist _).subset hmem)
  | error cause =>
    obtain ⟨earlier, last, s, hsteps, -, -, hpass⟩ := steps_of_error p index v cause hr
    rw [hsteps, List.dropLast_concat] at hmem
    exact hpass e hmem

/-- An object segment that gets through has what it gets to as its only child. -/
theorem Segment.children_object {s : Segment} {v u : Document σ} (hkind : s.kind = .object)
    (h : v.resolve [s] = .ok u) : s.children v = [u] := by
  rw [children]
  rcases Document.resolve_cons_eq_ok_iff.mp h with
    ⟨ha, -⟩ | ⟨ha, -⟩ | ⟨ha, hu⟩ | ⟨ha, child, hchild, hu⟩ | ⟨ha, -⟩
  · rw [(action_eq_verbatim_iff.mp ha).1] at hkind
    cases hkind
  · rw [(action_eq_leaf_iff.mp ha).1] at hkind
    cases hkind
  · cases hu
    simp only [ha]
  · cases hu
    simp only [ha, hchild]
  · rw [action_eq_fanOut_iff.mp ha] at hkind
    cases hkind

/-- An array segment that gets through has the elements as its children. -/
theorem Segment.children_array {s : Segment} {v u : Document σ} (hkind : s.kind = .array)
    (h : v.resolve [s] = .ok u) : s.elements v = .ok (s.children v) := by
  have ha := action_eq_fanOut_iff.mpr hkind
  rw [Document.resolve_fanOut ha, bind_eq_ok_iff] at h
  obtain ⟨items, hitems, -⟩ := h
  simp only [children, ha, hitems]

/-- **What follows on a step.** -/
theorem follows_of_steps {index : Nat} {v : Document σ} {p : Path} {front back : List (Event σ)}
    {e next : Event σ} (h : steps index v p = front ++ e :: next :: back) :
    Follows front e next := by
  have hresumes := resumes_of_steps h
  have hstep : e.step = .ofSegment e.segment :=
    step_of_mem_steps p index v e (by rw [h]; simp)
  obtain ⟨u, hu⟩ := passes_of_followed h
  have hchildren : ∀ s, e.segment = some s → e.children = s.children e.value :=
    fun s hs => by rw [Event.children, hs]
  have hpasses : ∀ s, e.segment = some s → e.value.resolve [s] = .ok u := by
    intro s hs
    rwa [hs] at hu
  have haction : ∀ s a, e.segment = some s → e.step = .applied a → s.action = a := by
    intro s a hs ha
    rw [hs, ha] at hstep
    exact (Step.applied.inj hstep).symm
  refine ⟨fun ha => ?_, fun s ha hs => ?_, fun s ha hs => ?_, fun hnone => ?_⟩
  · cases hs : e.segment with
    | none => rw [ha, hs] at hstep; cases hstep
    | some s =>
      have hself : e.children = [e.value] := by
        rw [hchildren s hs, Segment.children, haction s _ hs ha]
      exact hresumes.into_child hself
  · have hobject := (Segment.action_eq_descend_iff.mp (haction s _ hs ha)).1
    have hnext := hresumes.into_child
      ((hchildren s hs).trans (Segment.children_object hobject (hpasses s hs)))
    refine ⟨hnext.1, ?_⟩
    rw [hnext.2]
    have hresolve := hpasses s hs
    rw [Document.resolve_descend (haction s _ hs ha), bind_eq_ok_iff] at hresolve
    obtain ⟨child, hchild, hu⟩ := hresolve
    cases hu
    exact hchild
  · have harray := Segment.action_eq_fanOut_iff.mp (haction s _ hs ha)
    refine ⟨_, Segment.children_array harray (hpasses s hs), fun hne => ?_⟩
    obtain ⟨child, others, hcons⟩ := List.exists_cons_of_ne_nil hne
    have hnext := hresumes.into_child ((hchildren s hs).trans hcons)
    exact ⟨hnext.1, by rw [hcons, hnext.2]; rfl⟩
  · refine exists_enclosing_fanOut h ?_
    rcases hnone with hterminal | ⟨s, ha, hs, hempty⟩
    · rw [Event.children]
      cases hs : e.segment with
      | none => rfl
      | some s =>
        rw [hs, Step.ofSegment] at hstep
        rw [hstep] at hterminal
        show s.children e.value = []
        rw [Segment.children]
        cases hact : s.action <;> simp [hact, Step.isTerminal] at hterminal ⊢
    · rw [hchildren s hs, Segment.children, haction s _ hs ha, hempty]

/-! ## Counting -/

/-- The steps at a position. -/
def atIndex (i : Nat) (events : List (Event σ)) : List (Event σ) :=
  events.filter fun e => e.index = i

theorem atIndex_append (i : Nat) (events more : List (Event σ)) :
    atIndex i (events ++ more) = atIndex i events ++ atIndex i more := List.filter_append ..

theorem atIndex_eq_nil {i : Nat} {events : List (Event σ)} (h : ∀ e ∈ events, i < e.index) :
    atIndex i events = [] := by
  rw [atIndex, List.filter_eq_nil_iff]
  intro e he
  have hlt := h e he
  simp only [decide_eq_true_eq]
  omega

theorem atIndex_cons_of_eq {i : Nat} {e : Event σ} (h : e.index = i) (events : List (Event σ)) :
    atIndex i (e :: events) = e :: atIndex i events :=
  List.filter_cons_of_pos (by simpa using h)

theorem atIndex_cons_of_ne {i : Nat} {e : Event σ} (h : e.index ≠ i) (events : List (Event σ)) :
    atIndex i (e :: events) = atIndex i events :=
  List.filter_cons_of_neg (by simpa using h)

/-- At one position there are as many steps as the steps at the position before have children. -/
def Level (i : Nat) (events : List (Event σ)) : Prop :=
  (atIndex (i + 1) events).length = ((atIndex i events).map fun e => e.children.length).sum

/-- Walks in a row add up. -/
theorem level_flatMap {α : Type} {i : Nat} {values : List α} {f : α → List (Event σ)}
    (h : ∀ a ∈ values, Level i (f a)) : Level i (values.flatMap f) := by
  induction values with
  | nil => rfl
  | cons a rest ih =>
    obtain ⟨ha, hrest⟩ := List.forall_mem_cons.mp h
    unfold Level at ha ih ⊢
    rw [List.flatMap_cons, atIndex_append, atIndex_append, List.length_append, List.map_append,
      List.sum_append, ha, ih hrest]

/-- **In a walk that gets through, all levels are complete.** -/
theorem level_steps (p : Path) : ∀ (index : Nat) (v w : Document σ), v.resolve p = .ok w →
    ∀ i, index ≤ i → Level i (steps index v p) := by
  induction p with
  | nil =>
    intro index v w _ i hi
    unfold Level
    rw [steps_nil, atIndex_cons_of_ne (by dsimp only; omega)]
    by_cases h : index = i
    · rw [atIndex_cons_of_eq h]
      rfl
    · rw [atIndex_cons_of_ne h]
      rfl
  | cons s rest ih =>
    intro index v w hw i hi
    rw [steps_eq_cons, stepsAfter_of_ok hw]
    have hchildren : ∀ child ∈ s.children v, index + 1 ≤ i →
        Level i (steps (index + 1) child rest) := by
      intro child hchild hle
      obtain ⟨u, hu⟩ := children_of_ok hw child hchild
      exact ih (index + 1) child u hu i hle
    unfold Level
    rw [atIndex_cons_of_ne (by rw [index_firstStep]; omega)]
    by_cases h : index = i
    · -- the next level is the first steps of the children
      subst h
      rw [atIndex_cons_of_eq (index_firstStep ..), atIndex, ← List.countP_eq_length_filter,
        countP_flatMap_steps, atIndex_eq_nil]
      · rfl
      · intro e he
        obtain ⟨child, -, he⟩ := List.mem_flatMap.mp he
        exact le_index_of_mem_steps he
    · rw [atIndex_cons_of_ne (by rw [index_firstStep]; omega)]
      exact level_flatMap fun child hchild => hchildren child hchild (by omega)

/-! ## Traces -/

/-- **A trace is a walk in preorder, with exact counts.** It starts on the document, at the first
position. A step is told of the segment at its position, or of none at the end of the path, and is
what that segment gives rise to; no position is after the first literal. What comes next is as
`Follows` says. When the path resolves, an object segment is applied as often as the one after it,
and at the position after an array segment there are as many steps as it has found elements. -/
theorem trace_preorder (p : Path) (v : Document σ) :
    (∃ rest, v.trace p = ⟨0, p.head?, .ofSegment p.head?, v⟩ :: rest ∧
      ∀ e ∈ rest, 0 < e.index) ∧
    (∀ e ∈ v.trace p, e.segment = p[e.index]? ∧ e.step = .ofSegment e.segment ∧
      (e.segment = none ↔ e.step = .ended) ∧ (e.segment = none ↔ e.index = p.length) ∧
      e.index ≤ p.findIdx fun s => s.kind = .literal) ∧
    (∀ front e next back, v.trace p = front ++ e :: next :: back → Follows front e next) ∧
    ∀ w, v.resolve p = .ok w → ∀ i s, p[i]? = some s →
      (s.kind = .object →
        (atIndex (i + 1) (v.trace p)).length = (atIndex i (v.trace p)).length) ∧
      (s.kind = .array → ∃ arrays,
        List.Forall₂ (fun e items => s.elements e.value = .ok items) (atIndex i (v.trace p))
          arrays ∧
        (atIndex (i + 1) (v.trace p)).length = (arrays.map List.length).sum) := by
  rw [Document.trace_eq_steps]
  refine ⟨⟨_, steps_eq_cons 0 v p, fun e he => lt_index_of_mem_stepsAfter he⟩, fun e he => ?_,
    fun front e next back h => follows_of_steps h, fun w hw i s hs => ?_⟩
  · have hstep := step_of_mem_steps p 0 v e he
    have hle := index_le_of_mem_steps p 0 v e he
    rw [Nat.zero_add] at hle
    rw [← Document.trace_eq_steps] at he
    have hsegment := Document.segment_of_mem_trace he
    have hlength : (p.findIdx fun s => s.kind = .literal) ≤ p.length := List.findIdx_le_length
    refine ⟨hsegment, hstep, by rw [hstep, Step.ofSegment_eq_ended_iff], ?_, hle⟩
    rw [hsegment, List.getElem?_eq_none_iff]
    omega
  · have hlevel := level_steps p 0 v w hw i (Nat.zero_le i)
    unfold Level at hlevel
    -- every step at the position is of the segment there, and gets through
    have hat : ∀ e ∈ atIndex i (steps 0 v p),
        e.children = s.children e.value ∧ ∃ u, e.value.resolve [s] = .ok u := by
      intro e he
      obtain ⟨hmem, hindex⟩ := List.mem_filter.mp he
      obtain ⟨u, hu⟩ := steps_of_ok p 0 v w hw e hmem
      rw [← Document.trace_eq_steps] at hmem
      have hsegment := Document.segment_of_mem_trace hmem
      rw [of_decide_eq_true hindex, hs] at hsegment
      rw [hsegment] at hu
      exact ⟨by rw [Event.children, hsegment], u, hu⟩
    refine ⟨fun hkind => ?_, fun hkind => ⟨(atIndex i (steps 0 v p)).map Event.children, ?_, ?_⟩⟩
    · have hone : ∀ e ∈ atIndex i (steps 0 v p), e.children.length = 1 := by
        intro e he
        obtain ⟨hchildren, u, hu⟩ := hat e he
        rw [hchildren, Segment.children_object hkind hu]
        rfl
      rw [hlevel, List.map_congr_left hone, List.map_const', List.sum_replicate_nat,
        Nat.mul_one]
    · rw [List.forall₂_map_right_iff]
      refine List.forall₂_same.mpr fun e he => ?_
      obtain ⟨hchildren, u, hu⟩ := hat e he
      rw [hchildren]
      exact Segment.children_array hkind hu
    · rw [hlevel, List.map_map]
      rfl

/-- Behind an empty array the walk goes on with the next array, and the elements of the second level
are counted over all arrays of the first. -/
theorem trace_preorder_of_inner_arrays :
    let v : Value := .array [.array [Value.null], .array [], .array [Value.null]]
    let row (value : Value) : Event Scalar := ⟨1, some (.of "" .array), .applied .fanOut, value⟩
    let item : Event Scalar := ⟨2, none, .ended, Value.null⟩
    Follows [⟨0, some (.of "" .array), .applied .fanOut, v⟩, row (.array [Value.null]), item]
      (row (.array [])) (row (.array [Value.null])) ∧
    ∃ arrays, List.Forall₂ (fun e items => (Segment.of "" .array).elements e.value = .ok items)
        [row (.array [Value.null]), row (.array []), row (.array [Value.null])] arrays ∧
      2 = (arrays.map List.length).sum := by
  intro v row item
  obtain ⟨-, -, hfollows, hcounts⟩ := trace_preorder [.of "" .array, .of "" .array] v
  exact ⟨hfollows _ _ _ [item] rfl, ((hcounts v rfl) 1 (.of "" .array) rfl).2 rfl⟩

end PropertyPath
