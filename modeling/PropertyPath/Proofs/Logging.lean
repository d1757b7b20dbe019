import PropertyPath.Proofs.Equality
import PropertyPath.Proofs.Observers
import PropertyPath.Resolve.Log

/-!
# What a log tells

A logger is an observer like any other, so the outcomes are those of the paths on their own. The log
grows by a record for each step, or it stays as it is.

## Mechanism

`foldl_logger` says what a list of steps adds to a log. A sequence of calls is one such list
(`Resolver.resolveAll_eq_fold`).

A record is made of names. The names of steps and of kinds can be told from each other, and no kind
has an empty name, so that a record tells the step, the kind, and whether there was a segment
(`Log.Record.ofEvent_eq_iff`). Of the value it tells the type only.

* `Resolver.resolveAll_logger` — what a sequence of calls leaves in a log
* `Resolver.log_eq_iff` — which sequences of calls leave the same log
* `Resolver.log_eq_of_equiv` — equal values along equal paths are logged alike
-/

namespace PropertyPath

/-! ## Records -/

theorem Step.name_injective {step other : Step} (h : step.name = other.name) : step = other := by
  rcases step with _ | ⟨_ | _⟩ <;> rcases other with _ | ⟨_ | _⟩ <;>
    first | rfl | exact absurd h (by decide)

theorem SegmentKind.tag_ne_empty (kind : SegmentKind) : kind.tag ≠ "" := by
  cases kind <;> decide

/-- A segment that is missing is logged with an empty name, as some segments are, but also with an
empty kind. -/
theorem Segment.logged_eq_iff {segment other : Option Segment} :
    ((segment.map name).getD "" = (other.map name).getD "" ∧
      (segment.map fun s => s.kind.tag).getD "" = (other.map fun s => s.kind.tag).getD "") ↔
    segment.map name = other.map name ∧ segment.map kind = other.map kind := by
  cases segment with
  | none =>
    cases other with
    | none => exact iff_of_true ⟨rfl, rfl⟩ ⟨rfl, rfl⟩
    | some t => exact iff_of_false (fun h => t.kind.tag_ne_empty h.2.symm) nofun
  | some s =>
    cases other with
    | none => exact iff_of_false (fun h => s.kind.tag_ne_empty h.2) nofun
    | some t =>
      simp only [Option.map_some, Option.getD_some, Option.some.injEq]
      exact and_congr_right fun _ => ⟨SegmentKind.tag_injective, congrArg SegmentKind.tag⟩

/-- A log does not tell the two steps from each other. -/
structure Event.LoggedAlike (e e' : Event Scalar) : Prop where
  index : e.index = e'.index
  step : e.step = e'.step
  name : e.segment.map Segment.name = e'.segment.map Segment.name
  kind : e.segment.map Segment.kind = e'.segment.map Segment.kind
  typeName : Value.typeName e.value = Value.typeName e'.value

namespace Log

/-- **What a record tells of a step.** -/
theorem Record.ofEvent_eq_iff {e e' : Event Scalar} :
    ofEvent e = ofEvent e' ↔ e.LoggedAlike e' := by
  rw [ofEvent, ofEvent, mk.injEq]
  constructor
  · rintro ⟨-, -, -, index, step, name, kind, typeName⟩
    obtain ⟨name, kind⟩ := Segment.logged_eq_iff.mp ⟨name, kind⟩
    exact ⟨index, Step.name_injective step, name, kind, typeName⟩
  · rintro ⟨index, step, name, kind, typeName⟩
    obtain ⟨name, kind⟩ := Segment.logged_eq_iff.mpr ⟨name, kind⟩
    exact ⟨rfl, rfl, rfl, index, congrArg Step.name step, name, kind, typeName⟩

theorem Record.map_ofEvent_eq_iff {events others : List (Event Scalar)} :
    events.map ofEvent = others.map ofEvent ↔ List.Forall₂ Event.LoggedAlike events others := by
  rw [← List.forall₂_eq_eq_eq, List.forall₂_map_left_iff, List.forall₂_map_right_iff]
  simp only [ofEvent_eq_iff]

/-- Records are of the finest level, so only a log with the finest threshold takes them. -/
theorem Level.takes_level_ofEvent {threshold : Level} (e : Event Scalar) :
    threshold.takes (Record.ofEvent e).level = true ↔ threshold = .trace := by
  show threshold.takes .trace = true ↔ _
  cases threshold <;> decide

end Log

/-! ## Logs -/

/-- A step adds its record, or nothing. -/
theorem onStep_logger (threshold : Log.Level) (log : Array Log.Record) (e : Event Scalar) :
    ((Observer.logger threshold).onStep log e).toList
      = log.toList ++ if threshold = .trace then [Log.Record.ofEvent e] else [] := by
  by_cases h : threshold = .trace
  · rw [if_pos h, ← Array.toList_push]
    exact congrArg Array.toList (if_pos ((Log.Level.takes_level_ofEvent e).mpr h))
  · rw [if_neg h, List.append_nil]
    exact congrArg Array.toList (if_neg (mt (Log.Level.takes_level_ofEvent e).mp h))

theorem foldl_logger (threshold : Log.Level) (events : List (Event Scalar)) :
    ∀ log : Array Log.Record, (events.foldl (Observer.logger threshold).onStep log).toList
      = log.toList ++ if threshold = .trace then events.map Log.Record.ofEvent else [] := by
  induction events with
  | nil => intro log; simp
  | cons event events ih =>
    intro log
    rw [List.foldl_cons, ih, onStep_logger, List.append_assoc]
    split <;> rfl

namespace Resolver

/-- **A logger does not interfere, and logs all steps or none.** The outcomes of a sequence of calls
are those of the paths on their own. The log keeps what it has, and the records of the steps of the
calls come behind it in order, if the threshold lets them pass. -/
theorem resolveAll_logger (threshold : Log.Level) (log : Array Log.Record)
    (calls : List (Value × Path)) :
    (((Resolver.mk (.logger threshold) log).resolveAll calls).1
      = calls.map fun call => call.1.resolve call.2) ∧
    ((Resolver.mk (.logger threshold) log).resolveAll calls).2.state.toList
      = log.toList ++ if threshold = .trace then
        (calls.flatMap fun call => call.1.trace call.2).map Log.Record.ofEvent else [] := by
  rw [resolveAll_eq_fold]
  exact ⟨rfl, foldl_logger threshold _ log⟩

/-- **What a log tells.** Two sequences of calls leave the same log exactly when they take the same
number of steps, and these agree one by one in their index, what they do, the name and the kind of
their segment, and the type of their value. -/
theorem log_eq_iff (log : Array Log.Record) (calls others : List (Value × Path)) :
    ((Resolver.mk (.logger .trace) log).resolveAll calls).2.state
        = ((Resolver.mk (.logger .trace) log).resolveAll others).2.state ↔
      List.Forall₂ Event.LoggedAlike (calls.flatMap fun call => call.1.trace call.2)
        (others.flatMap fun call => call.1.trace call.2) := by
  rw [← Array.toList_inj, (resolveAll_logger .trace log calls).2,
    (resolveAll_logger .trace log others).2, if_pos rfl, if_pos rfl, List.append_cancel_left_eq,
    Log.Record.map_ofEvent_eq_iff]

end Resolver

/-! ## Equal calls -/

theorem Scalar.typeName_eq_of_equiv {s t : Scalar} (h : s.equiv t = true) :
    s.typeName = t.typeName := by
  unfold equiv at h
  split at h
  · rfl
  · rw [eq_of_beq h]

theorem Value.typeName_eq_of_equiv {v w : Value} (h : Value.equiv v w = true) :
    Value.typeName v = Value.typeName w := by
  have hshape := Document.shape_eq_of_equivBy h
  cases v with
  | scalar s =>
    cases w with
    | scalar t => exact Scalar.typeName_eq_of_equiv h
    | array _ | object _ => cases hshape
  | array _ => cases w with
    | array _ => rfl
    | scalar _ | object _ => cases hshape
  | object _ => cases w with
    | object _ => rfl
    | scalar _ | array _ => cases hshape

theorem Event.Equal.loggedAlike {e e' : Event Scalar} (h : e.Equal e') : e.LoggedAlike e' :=
  ⟨h.index, h.step, h.name, h.kind, Value.typeName_eq_of_equiv h.value⟩

/-- **Equal values along equal paths are logged alike.** -/
theorem Resolver.log_eq_of_equiv (log : Array Log.Record) {calls others : List (Value × Path)}
    (h : List.Forall₂ (fun call other =>
      Value.equiv call.1 other.1 = true ∧ call.2.equiv other.2 = true) calls others) :
    ((Resolver.mk (.logger .trace) log).resolveAll calls).2.state
      = ((Resolver.mk (.logger .trace) log).resolveAll others).2.state := by
  have hsim := Document.simulation_equivBy Scalar.equiv
  rw [log_eq_iff]
  refine List.rel_flatMap h fun call other hcall => ?_
  have htrace := hsim.trace Segment.actsAlike_of_equiv (Path.equiv_iff_forall₂.mp hcall.2) hcall.1
  exact htrace.imp fun _ _ hevent => (Event.equal_of_related hevent).loggedAlike

end PropertyPath
