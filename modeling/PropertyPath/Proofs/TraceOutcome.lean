import PropertyPath.Proofs.Nested
import PropertyPath.Proofs.Steps

/-!
# What a trace tells of the outcome

A walk ends at one place or at many, each with a terminal step: the path has ended, or a literal is
reached. On success what these steps yield, in order, are the elements of the result. On failure the
last step told is the one that fails, and it is the only one.

## Mechanism

All is proved for the list of steps, by induction on the path, with the inversions of the outcome as
the cases. A fan-out tells the steps of one element after the other, and the elements of its result
are those of the results, one after the other.

* `terminal_of_mem_steps`, `segment_of_mem_steps` — where a step stands
* `map_output_terminal_steps` — what the terminal steps yield
* `steps_of_ok`, `steps_of_error` — which steps fail
* `trace_outcome` — the outcome, read off the trace
-/

namespace PropertyPath

variable {σ : Type}

/-! ## Terminal steps -/

/-- Nothing follows the step on the value that it is taken on. -/
def Step.isTerminal : Step → Bool
  | .ended | .applied .verbatim | .applied .leaf => true
  | .applied .root | .applied .descend | .applied .fanOut => false

/-- What a terminal step yields: the field that a leaf names, and otherwise the value itself. -/
def Event.output (event : Event σ) : Option (Document σ) :=
  match event.step with
  | .applied .leaf => event.segment.bind fun s => event.value.child? s.name
  | _ => some event.value

/-- The terminal steps among others. -/
def terminal (events : List (Event σ)) : List (Event σ) := events.filter fun e => e.step.isTerminal

theorem terminal_flatMap {α : Type} (items : List α) (f : α → List (Event σ)) :
    terminal (items.flatMap f) = items.flatMap fun a => terminal (f a) :=
  List.filter_flatMap ..

/-- The step that ends the walks of a path: that of its first literal, if it has one. -/
def Path.ending (p : Path) : Step :=
  match p.find? fun s => s.kind = .literal with
  | some s => .applied s.action
  | none => .ended

/-! ## Where steps stand -/

/-- The steps after the first are those of what is left, unless the first segment is a literal. -/
theorem mem_steps_cons {event : Event σ} {index : Nat} {v : Document σ} {s : Segment} {rest : Path}
    (h : event ∈ steps index v (s :: rest)) :
    event = ⟨index, some s, .applied s.action, v⟩ ∨
      s.kind ≠ .literal ∧ ∃ x, event ∈ steps (index + 1) x rest := by
  rw [steps, List.mem_cons] at h
  refine h.imp_right fun h => ?_
  cases ha : s.action with
  | verbatim => simp [ha] at h
  | leaf => simp [ha] at h
  | root =>
    simp only [ha] at h
    exact ⟨by simp [(Segment.action_eq_root_iff.mp ha).1], v, h⟩
  | descend =>
    simp only [ha] at h
    cases hf : v.field s.name with
    | ok child =>
      rw [hf] at h
      exact ⟨by simp [(Segment.action_eq_descend_iff.mp ha).1], child, h⟩
    | error e => simp [hf] at h
  | fanOut =>
    simp only [ha] at h
    cases he : s.elements v with
    | ok items =>
      rw [he] at h
      obtain ⟨item, _, hitem⟩ := List.mem_flatMap.mp h
      exact ⟨by simp [Segment.action_eq_fanOut_iff.mp ha], item, hitem⟩
    | error e => simp [he] at h

/-- A step is told of the segment at its position. -/
theorem segment_of_mem_steps (p : Path) : ∀ (index : Nat) (v : Document σ) (event : Event σ),
    event ∈ steps index v p → ∃ k, event.index = index + k ∧ event.segment = p[k]? := by
  induction p with
  | nil =>
    intro index v event h
    rw [steps_nil, List.mem_singleton] at h
    exact ⟨0, by rw [h]; rfl, by rw [h]; rfl⟩
  | cons s rest ih =>
    intro index v event h
    rcases mem_steps_cons h with rfl | ⟨_, x, hx⟩
    · exact ⟨0, rfl, rfl⟩
    · obtain ⟨k, hindex, hsegment⟩ := ih (index + 1) x event hx
      exact ⟨k + 1, by omega, by rw [hsegment, List.getElem?_cons_succ]⟩

/-- **All terminal steps are of one kind and at one position.** -/
theorem terminal_of_mem_steps (p : Path) : ∀ (index : Nat) (v : Document σ) (event : Event σ),
    event ∈ steps index v p → event.step.isTerminal = true →
      event.step = p.ending ∧ event.index = index + p.findIdx fun s => s.kind = .literal := by
  induction p with
  | nil =>
    intro index v event h _
    rw [steps_nil, List.mem_singleton] at h
    exact ⟨by rw [h]; rfl, by rw [h]; rfl⟩
  | cons s rest ih =>
    intro index v event h hterm
    rcases mem_steps_cons h with rfl | ⟨hkind, x, hx⟩
    · -- only a literal is applied with a terminal step
      have hkind : s.kind = .literal := by
        cases ha : s.action <;> simp only [ha, Step.isTerminal, reduceCtorEq] at hterm
        · exact (Segment.action_eq_verbatim_iff.mp ha).1
        · exact (Segment.action_eq_leaf_iff.mp ha).1
      exact ⟨by simp [Path.ending, hkind], by simp [List.findIdx_cons, hkind]⟩
    · obtain ⟨hstep, hindex⟩ := ih (index + 1) x event hx hterm
      refine ⟨by simpa [Path.ending, hkind] using hstep, ?_⟩
      simp only [List.findIdx_cons, hkind, decide_false, cond_false]
      omega

/-! ## What terminal steps yield -/

/-- **What the terminal steps yield are the elements of the result, from left to right.** -/
theorem map_output_terminal_steps (p : Path) : ∀ (index : Nat) (v w : Document σ),
    v.resolve p = .ok w →
      (terminal (steps index v p)).map Event.output = (w.elementsAt p.fanOuts).map some := by
  induction p with
  | nil =>
    intro index v w hw
    cases hw
    rfl
  | cons s rest ih =>
    intro index v w hw
    rcases Document.resolve_cons_eq_ok_iff.mp hw with
      ⟨h, rfl⟩ | ⟨h, hleaf⟩ | ⟨h, hw⟩ | ⟨h, child, hchild, hw⟩ | ⟨h, items, found, he, rfl, hfound⟩
    · rw [steps_verbatim index v rest h,
        Path.fanOuts_literal (Segment.action_eq_verbatim_iff.mp h).1]
      rfl
    · rw [steps_leaf index v rest h, Path.fanOuts_literal (Segment.action_eq_leaf_iff.mp h).1]
      simp [terminal, Step.isTerminal, Event.output, Document.elementsAt,
        Document.child?_eq_some_iff.mpr hleaf]
    · rw [steps_root index v rest h, Path.fanOuts_object (Segment.action_eq_root_iff.mp h).1]
      exact ih (index + 1) v w hw
    · rw [steps_descend index v rest h hchild,
        Path.fanOuts_object (Segment.action_eq_descend_iff.mp h).1]
      exact ih (index + 1) child w hw
    · have hok := forall_ok_of_forall₂ hfound
      rw [steps_fanOut index v rest h he, tried_of_ok hok,
        Path.fanOuts_array (Segment.action_eq_fanOut_iff.mp h)]
      show (terminal (items.flatMap _)).map Event.output = _
      rw [terminal_flatMap, List.map_flatMap, Document.elementsAt, List.map_flatMap]
      exact flatMap_congr_of_forall₂ (hfound.imp fun item b hb => ih (index + 1) item b hb)

/-! ## Which steps fail -/

/-- The step gets through: applied to its value, its segment alone does not fail. -/
def Event.Passes (event : Event σ) : Prop :=
  ∃ u, event.value.resolve event.segment.toList = .ok u

/-- Where a path resolves, all its steps get through. -/
theorem steps_of_ok (p : Path) : ∀ (index : Nat) (v w : Document σ), v.resolve p = .ok w →
    ∀ event ∈ steps index v p, event.Passes := by
  induction p with
  | nil =>
    intro index v w _
    exact List.forall_mem_singleton.mpr ⟨v, rfl⟩
  | cons s rest ih =>
    intro index v w hw
    rcases Document.resolve_cons_eq_ok_iff.mp hw with
      ⟨h, _⟩ | ⟨h, hleaf⟩ | ⟨h, hw⟩ | ⟨h, child, hchild, hw⟩ | ⟨h, items, found, he, _, hfound⟩
    · rw [steps_verbatim index v rest h]
      exact List.forall_mem_singleton.mpr ⟨v, Document.resolve_verbatim h v []⟩
    · rw [steps_leaf index v rest h]
      exact List.forall_mem_singleton.mpr ⟨w, (Document.resolve_leaf h v []).trans hleaf⟩
    · rw [steps_root index v rest h]
      exact List.forall_mem_cons.mpr
        ⟨⟨v, Document.resolve_single_root h⟩, ih (index + 1) v w hw⟩
    · rw [steps_descend index v rest h hchild]
      exact List.forall_mem_cons.mpr
        ⟨⟨child, Document.resolve_single_descend h hchild⟩, ih (index + 1) child w hw⟩
    · have hok := forall_ok_of_forall₂ hfound
      rw [steps_fanOut index v rest h he, tried_of_ok hok]
      refine List.forall_mem_cons.mpr ⟨⟨_, Document.resolve_single_fanOut h he⟩, ?_⟩
      intro event hevent
      obtain ⟨item, hitem, hmem⟩ := List.mem_flatMap.mp hevent
      obtain ⟨b, hb⟩ := hok item hitem
      exact ih (index + 1) item b hb event hmem

/-- A segment that fails is the last to be told. -/
theorem steps_of_raised {s : Segment} {v : Document σ} {e : ResolveError σ}
    (h : v.resolve [s] = .error e) (index : Nat) (rest : Path) :
    steps index v (s :: rest) = [⟨index, some s, .applied s.action, v⟩] := by
  rcases Document.resolve_single_eq_error_iff.mp h with ⟨hleaf | hdescend, herr⟩ | ⟨hfan, herr⟩
  · rw [steps_leaf index v rest hleaf, hleaf]
  · rw [steps_descend_error index v rest hdescend herr, hdescend]
  · rw [steps_fanOut_error index v rest hfan herr, hfan]

/-- The last step fails with the error, and all before it get through. -/
def FailsLast (events : List (Event σ)) (e : ResolveError σ) : Prop :=
  ∃ earlier last s, events = earlier ++ [last] ∧ last.segment = some s ∧
    last.value.resolve [s] = .error e ∧ ∀ event ∈ earlier, event.Passes

theorem FailsLast.append {before events : List (Event σ)} {e : ResolveError σ}
    (hbefore : ∀ event ∈ before, event.Passes) (h : FailsLast events e) :
    FailsLast (before ++ events) e := by
  obtain ⟨earlier, last, s, rfl, hsegment, hlast, hpass⟩ := h
  exact ⟨before ++ earlier, last, s, (List.append_assoc ..).symm, hsegment, hlast,
    List.forall_mem_append.mpr ⟨hbefore, hpass⟩⟩

theorem FailsLast.cons {event : Event σ} {events : List (Event σ)} {e : ResolveError σ}
    (hevent : event.Passes) (h : FailsLast events e) : FailsLast (event :: events) e :=
  h.append (List.forall_mem_singleton.mpr hevent)

/-- **Where a path fails, the last step fails in the same way and all others get through.** -/
theorem steps_of_error (p : Path) : ∀ (index : Nat) (v : Document σ) (e : ResolveError σ),
    v.resolve p = .error e → FailsLast (steps index v p) e := by
  induction p with
  | nil => intro index v e h; cases h
  | cons s rest ih =>
    intro index v e herr
    rcases Document.resolve_cons_eq_error_iff.mp herr with
      hraised | ⟨h, herr⟩ | ⟨h, child, hchild, herr⟩ | ⟨h, before, item, after, he, hbefore, herr⟩
    · exact ⟨[], _, s, steps_of_raised hraised index rest, rfl, hraised, by simp⟩
    · rw [steps_root index v rest h]
      exact (ih (index + 1) v e herr).cons ⟨v, Document.resolve_single_root h⟩
    · rw [steps_descend index v rest h hchild]
      exact (ih (index + 1) child e herr).cons ⟨child, Document.resolve_single_descend h hchild⟩
    · rw [steps_fanOut index v rest h he, tried_of_error hbefore herr, List.flatMap_append,
        List.flatMap_singleton]
      refine ((ih (index + 1) item e herr).append ?_).cons ⟨_, Document.resolve_single_fanOut h he⟩
      -- the elements before the one that fails have told all their steps
      intro event hevent
      obtain ⟨x, hx, hmem⟩ := List.mem_flatMap.mp hevent
      obtain ⟨w, hw⟩ := hbefore x hx
      exact steps_of_ok rest (index + 1) x w hw event hmem

/-! ## Traces -/

namespace Document

theorem segment_of_mem_trace {p : Path} {v : Document σ} {event : Event σ} (h : event ∈ v.trace p) :
    event.segment = p[event.index]? := by
  rw [trace_eq_steps] at h
  obtain ⟨k, hindex, hsegment⟩ := segment_of_mem_steps p 0 v event h
  rw [hsegment, hindex, Nat.zero_add]

end Document

/-- **The outcome can be read off the trace.** Terminal steps are all of one kind and at one
position, that of the first literal or the end of the path. On success the result is nested as deep
as the path has fan-outs, and its elements are what the terminal steps yield, in order. On failure
the last step is at a segment that fails on its value with the error, and every step before gets
through. -/
theorem trace_outcome (p : Path) (v : Document σ) :
    (∀ event ∈ v.trace p, event.step.isTerminal = true →
      event.step = p.ending ∧ event.index = p.findIdx fun s => s.kind = .literal) ∧
    (∀ w, v.resolve p = .ok w → w.Nested p.fanOuts ∧
      (terminal (v.trace p)).map Event.output = (w.elementsAt p.fanOuts).map some) ∧
    ∀ e, v.resolve p = .error e →
      ∃ earlier last s, v.trace p = earlier ++ [last] ∧ last.segment = some s ∧
        p[last.index]? = some s ∧ last.value.resolve [s] = .error e ∧
        ∀ event ∈ earlier, ∃ u, event.value.resolve ((p.drop event.index).take 1) = .ok u := by
  refine ⟨fun event hevent hterm => ?_, fun w hw => ⟨?_, ?_⟩, fun e he => ?_⟩
  · rw [Document.trace_eq_steps] at hevent
    have hend := terminal_of_mem_steps p 0 v event hevent hterm
    rwa [Nat.zero_add] at hend
  · exact Document.resolve_nested p v w hw
  · rw [Document.trace_eq_steps]
    exact map_output_terminal_steps p 0 v w hw
  · obtain ⟨earlier, last, s, hsteps, hsegment, hlast, hpass⟩ := steps_of_error p 0 v e he
    rw [← Document.trace_eq_steps] at hsteps
    have hat : ∀ event ∈ earlier ++ [last], event.segment = p[event.index]? :=
      fun event hevent => Document.segment_of_mem_trace (hsteps ▸ hevent)
    refine ⟨earlier, last, s, hsteps, hsegment, ?_, hlast, fun event hevent => ?_⟩
    · rw [← hat last (by simp), hsegment]
    · rw [List.take_one, List.head?_drop, ← hat event (List.mem_append_left _ hevent)]
      exact hpass event hevent

/-- An empty array yields nothing, and an element that is not an array is where the trace stops. -/
theorem trace_outcome_of_inner_arrays :
    (terminal ((Document.array [.array [Value.null], .array []]).trace
      [.of "" .array, .of "" .array])).map Event.output = [some Value.null] ∧
    ∃ earlier last s, (Document.array [.array [], Value.null, .array [Value.null]]).trace
        [.of "" .array, .of "" .array] = earlier ++ [last] ∧ last.segment = some s ∧
      last.value.resolve [s] = .error (.shapeMismatch .array .literal Value.null) := by
  refine ⟨((trace_outcome [.of "" .array, .of "" .array] _).2.1
    (.array [.array [Value.null], .array []]) rfl).2, ?_⟩
  obtain ⟨earlier, last, s, htrace, hsegment, _, hlast, _⟩ :=
    (trace_outcome [.of "" .array, .of "" .array]
      (.array [.array [], Value.null, .array [Value.null]])).2.2
        (.shapeMismatch .array .literal Value.null) rfl
  exact ⟨earlier, last, s, htrace, hsegment, hlast⟩

end PropertyPath
