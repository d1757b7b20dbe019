import PropertyPath.Proofs.Simulation
import PropertyPath.Proofs.Steps

/-!
# Related documents take related steps

A walk takes its next step by the action of a segment, by its name, and by what the document
answers. So on related documents, along segments that act alike, the walks take the same actions on
related documents. They also stop at the same step: a fan-out goes on up to the first element that
fails, and of two related elements both fail or none does.

The relation between segments is a parameter `Q`. What is needed of it is that related segments act
alike, which `ActsAlike` says up to names.

* `Simulation.resolve_alike` — related documents resolve alike along related paths
* `Simulation.trace` — and their traces are related step by step
-/

namespace PropertyPath

variable {σ ρ α β γ δ : Type} {names : String → String} {R : Document σ → Document ρ → Prop}
  {Q : Segment → Segment → Prop}

/-! ## Segments that act alike -/

/-- Two segments that take the same action, on the field of the one name and of the other. -/
structure Segment.ActsAlike (names : String → String) (s t : Segment) : Prop where
  name : t.name = names s.name
  hasName : t.hasName = s.hasName
  action : t.action = s.action

/-- Along segments that act alike, the same is looked up under the other names. -/
theorem lookups_alike (hQ : ∀ {s t}, Q s t → s.ActsAlike names t) {p q : Path}
    (hpq : List.Forall₂ Q p q) : q.lookups = p.lookups.map (Lookup.rename names) := by
  induction hpq with
  | nil => rfl
  | @cons s t p q hst _ ih =>
    obtain ⟨hname, hhasName, haction⟩ := hQ hst
    cases h : s.action with
    | verbatim =>
      rw [lookups_verbatim p h, lookups_verbatim q (haction.trans h), List.map_nil]
    | leaf =>
      rw [lookups_leaf p h, lookups_leaf q (haction.trans h), hname]
      rfl
    | root => rw [lookups_root p h, lookups_root q (haction.trans h), ih]
    | descend =>
      rw [lookups_descend p h, lookups_descend q (haction.trans h), hname, ih]
      rfl
    | fanOut =>
      rw [lookups_fanOut p h, lookups_fanOut q (haction.trans h), hhasName, hname, ih]
      split <;> rfl

/-- **Related documents resolve alike along related paths.** -/
theorem Simulation.resolve_alike (h : Simulation names R)
    (hQ : ∀ {s t}, Q s t → s.ActsAlike names t) {p q : Path} (hpq : List.Forall₂ Q p q)
    {v : Document σ} {w : Document ρ} (hvw : R v w) :
    Attempt.Related names R R (v.resolve p) (w.resolve q) := by
  rw [resolve_eq_run, resolve_eq_run, lookups_alike hQ hpq]
  exact h.run p.lookups hvw

/-- Segments that act alike fan out over related elements. -/
theorem Simulation.elements_alike (h : Simulation names R) {s t : Segment}
    (hst : s.ActsAlike names t) {v : Document σ} {w : Document ρ} (hvw : R v w) :
    Attempt.Related names R (List.Forall₂ R) (s.elements v) (t.elements w) := by
  cases hname : s.hasName with
  | true =>
    rw [Segment.elements_named hname, Segment.elements_named (hst.hasName.trans hname), hst.name]
    exact (h.field hvw s.name).bind fun _ _ hchild => h.elements hchild
  | false =>
    rw [Segment.elements_unnamed hname, Segment.elements_unnamed (hst.hasName.trans hname)]
    exact h.elements hvw

/-- Of related lists as many elements are tried. -/
theorem Attempt.Related.tried {S : α → β → Prop} {T : γ → δ → Prop} {f : α → Attempt σ γ}
    {g : β → Attempt ρ δ} (hfg : ∀ a b, S a b → Attempt.Related names R T (f a) (g b))
    {as : List α} {bs : List β} (h : List.Forall₂ S as bs) :
    List.Forall₂ S (PropertyPath.tried f as) (PropertyPath.tried g bs) := by
  induction h with
  | nil => exact .nil
  | @cons a b as bs hab _ ih =>
    rw [PropertyPath.tried, PropertyPath.tried]
    obtain ⟨c, d, hc, hd, -⟩ | ⟨e, e', he, he', -⟩ := (hfg a b hab).ok_or_error
    · rw [hc, hd]
      exact .cons hab ih
    · rw [he, he']
      exact .cons hab .nil

/-! ## Related steps -/

/-- The same step at the same position, along related segments and on related documents. -/
structure Event.Related (Q : Segment → Segment → Prop) (R : Document σ → Document ρ → Prop)
    (e : Event σ) (e' : Event ρ) : Prop where
  index : e.index = e'.index
  segment : Option.Rel Q e.segment e'.segment
  step : e.step = e'.step
  value : R e.value e'.value

/-- **Related documents take related steps.** -/
theorem Simulation.steps (h : Simulation names R) (hQ : ∀ {s t}, Q s t → s.ActsAlike names t)
    {p q : Path} (hpq : List.Forall₂ Q p q) :
    ∀ (index : Nat) {v : Document σ} {w : Document ρ}, R v w →
      List.Forall₂ (Event.Related Q R) (steps index v p) (steps index w q) := by
  induction hpq with
  | nil =>
    intro index v w hvw
    exact .cons ⟨rfl, .none, rfl, hvw⟩ .nil
  | @cons s t p q hst hpq ih =>
    intro index v w hvw
    have halike := hQ hst
    have hfirst : ∀ action, Event.Related Q R ⟨index, some s, .applied action, v⟩
        ⟨index, some t, .applied action, w⟩ := fun action => ⟨rfl, .some hst, rfl, hvw⟩
    cases ha : s.action with
    | verbatim =>
      rw [steps_verbatim index v p ha, steps_verbatim index w q (halike.action.trans ha)]
      exact .cons (hfirst _) .nil
    | leaf =>
      rw [steps_leaf index v p ha, steps_leaf index w q (halike.action.trans ha)]
      exact .cons (hfirst _) .nil
    | root =>
      rw [steps_root index v p ha, steps_root index w q (halike.action.trans ha)]
      exact .cons (hfirst _) (ih (index + 1) hvw)
    | descend =>
      have hfield := h.field hvw s.name
      rw [← halike.name] at hfield
      obtain ⟨child, child', hv, hw, hchild⟩ | ⟨e, e', hv, hw, -⟩ := hfield.ok_or_error
      · rw [steps_descend index v p ha hv, steps_descend index w q (halike.action.trans ha) hw]
        exact .cons (hfirst _) (ih (index + 1) hchild)
      · rw [steps_descend_error index v p ha hv,
          steps_descend_error index w q (halike.action.trans ha) hw]
        exact .cons (hfirst _) .nil
    | fanOut =>
      -- as many elements are tried on both sides, and each pair of them takes related steps
      obtain ⟨items, others, hv, hw, hitems⟩ | ⟨e, e', hv, hw, -⟩ :=
        (h.elements_alike halike hvw).ok_or_error
      · rw [steps_fanOut index v p ha hv, steps_fanOut index w q (halike.action.trans ha) hw]
        have htried := Attempt.Related.tried
          (fun item other hitem => h.resolve_alike hQ hpq hitem) hitems
        exact .cons (hfirst _) (List.rel_flatMap htried fun item other => ih (index + 1))
      · rw [steps_fanOut_error index v p ha hv,
          steps_fanOut_error index w q (halike.action.trans ha) hw]
        exact .cons (hfirst _) .nil

/-- Traces of related documents along related paths are related, step by step. -/
theorem Simulation.trace (h : Simulation names R) (hQ : ∀ {s t}, Q s t → s.ActsAlike names t)
    {p q : Path} (hpq : List.Forall₂ Q p q) {v : Document σ} {w : Document ρ} (hvw : R v w) :
    List.Forall₂ (Event.Related Q R) (v.trace p) (w.trace q) := by
  rw [Document.trace_eq_steps, Document.trace_eq_steps]
  exact h.steps hQ hpq 0 hvw

end PropertyPath
