import PropertyPath.Proofs.Outcome

/-!
# The first failure

A path fails at one segment, on one value. The failure that is reported is the first in document
order: wherever the way to that value leads through an element of an array, the elements before it
resolve.

## Mechanism

A `Place` is a way down to a value, and `Place.FailsFirst` says that the failure there is the first.
A way down grows by one segment as a path does, and being first is kept: an object segment leads on
to one value, and a fan-out to the element chosen, with the elements before it fine.

* `Truthful.of_raised` — what the error then says is true
* `resolve_eq_error_iff_failsFirst` — a path fails exactly with the first failure
-/

namespace PropertyPath

variable {σ : Type} {s : Segment} {v : Document σ} {e : ResolveError σ}

/-! ## What an error says -/

/-- What an error says of the segment that raised it and of the value that it was raised on is true.
The offending value is that value, except where a named fan-out finds its field and the field is not
an array: there it is the field. -/
structure Truthful (s : Segment) (v : Document σ) (e : ResolveError σ) : Prop where
  /-- A shape that was expected is that of an object or of an array, and the shape that was found is
  that of the offending value and another one. -/
  mismatch : ∀ expected actual offender, e = .shapeMismatch expected actual offender →
    (expected = .object ∨ expected = .array) ∧ actual = offender.shape ∧ actual ≠ expected
  /-- A missing field is the one that the segment names, and is missing from an object. -/
  missing : ∀ name offender, e = .missingField name offender →
    name ≠ "" ∧ name = s.name ∧ ∃ fields, offender = .object fields ∧ fields.get? name = none
  offender_field : ∀ child, s.kind = .array → s.hasName = true → v.child? s.name = some child →
    child.shape ≠ .array → e = .shapeMismatch .array child.shape child
  offender_self : (¬ ∃ child, s.kind = .array ∧ s.hasName = true ∧ v.child? s.name = some child ∧
    child.shape ≠ .array) → e.value = v

/-- A mismatch tells the truth about a value of another shape. -/
theorem truthful_mismatch {expected : Shape} (hkind : expected = .object ∨ expected = .array)
    (hshape : v.shape ≠ expected) {expected' actual : Shape} {offender : Document σ}
    (h : ResolveError.mismatch expected v = .shapeMismatch expected' actual offender) :
    (expected' = .object ∨ expected' = .array) ∧ actual = offender.shape ∧ actual ≠ expected' := by
  obtain ⟨rfl, rfl, rfl⟩ := ResolveError.mismatch_eq_shapeMismatch_iff.mp h
  exact ⟨hkind, rfl, hshape⟩

/-- A failed lookup of a named field tells the truth. -/
theorem Truthful.of_field (hname : s.hasName = true) (herr : v.field s.name = .error e) :
    Truthful s v e := by
  have hnone := Document.child?_eq_none_of_error herr
  rcases Document.field_eq_error_iff.mp herr with ⟨hshape, rfl⟩ | ⟨fields, rfl, hget, rfl⟩
  · refine ⟨fun _ _ _ => truthful_mismatch (.inl rfl) hshape, ?_, ?_, fun _ => rfl⟩
    · rintro _ _ ⟨⟩
    · intro child _ _ hchild
      rw [hnone] at hchild
      cases hchild
  · refine ⟨?_, ?_, ?_, fun _ => rfl⟩
    · rintro _ _ _ ⟨⟩
    · rintro _ _ ⟨⟩
      exact ⟨Segment.hasName_eq_true_iff.mp hname, rfl, fields, rfl, hget⟩
    · intro child _ _ hchild
      rw [hnone] at hchild
      cases hchild

/-- A fan-out over what is not an array tells the truth. -/
theorem Truthful.of_elements (hkind : s.kind = .array) (herr : s.elements v = .error e) :
    Truthful s v e := by
  cases hname : s.hasName with
  | false =>
    rw [Segment.elements_unnamed hname, Document.elements_eq_error_iff] at herr
    obtain ⟨hshape, rfl⟩ := herr
    refine ⟨fun _ _ _ => truthful_mismatch (.inr rfl) hshape, ?_, ?_, fun _ => rfl⟩
    · rintro _ _ ⟨⟩
    · intro child _ h
      rw [hname] at h
      cases h
  | true =>
    rw [Segment.elements_named hname, bind_eq_error_iff] at herr
    rcases herr with herr | ⟨target, htarget, herr⟩
    · exact .of_field hname herr
    · obtain ⟨hshape, rfl⟩ := Document.elements_eq_error_iff.mp herr
      have hsome := Document.child?_eq_some_iff.mpr htarget
      refine ⟨fun _ _ _ => truthful_mismatch (.inr rfl) hshape, ?_, ?_,
        fun h => absurd ⟨target, hkind, hname, hsome, hshape⟩ h⟩
      · rintro _ _ ⟨⟩
      · intro child _ _ hchild _
        rw [hsome] at hchild
        cases hchild
        rfl

/-- **An error tells the truth about the segment that raises it.** -/
theorem Truthful.of_raised (h : v.resolve [s] = .error e) : Truthful s v e := by
  rcases Document.resolve_single_eq_error_iff.mp h with ⟨hleaf | hdescend, herr⟩ | ⟨hfan, herr⟩
  · exact .of_field (Segment.action_eq_leaf_iff.mp hleaf).2 herr
  · exact .of_field (Segment.action_eq_descend_iff.mp hdescend).2.2 herr
  · exact .of_elements (Segment.action_eq_fanOut_iff.mp hfan) herr

/-! ## Places -/

/-- A place that a path may fail at: a segment, the segments before and after it, the choices of
elements on the way there, and the value that the segment is applied to. -/
structure Place (σ : Type) where
  front : Path
  segment : Segment
  rest : Path
  choices : List Nat
  value : Document σ

namespace Place

/-- The path that the place is on. -/
def path (place : Place σ) : Path := place.front ++ place.segment :: place.rest

/-- The walk to the place gets through, the segment there raises the error, and at each fan-out on
the way the elements before the one chosen resolve along what is left of the path. -/
structure FailsFirst (place : Place σ) (v : Document σ) (e : ResolveError σ) : Prop where
  /-- No walk stops before it gets to the place. -/
  passable : ∀ t ∈ place.front, t.kind ≠ .literal
  choices_length : place.choices.length = place.front.fanOuts
  reached : walk place.front place.choices v = .stopped place.value
  raised : place.value.resolve [place.segment] = .error e
  /-- `above` leads to a fan-out on the way, with `below` between it and the segment that fails. -/
  earlier : ∀ (above : Path) (fan : Segment) (below : Path),
    place.front = above ++ fan :: below → fan.kind = .array →
    ∃ i, place.choices[above.fanOuts]? = some i ∧ ∀ j < i, ∃ sibling w,
      walk (above ++ [fan]) (place.choices.take above.fanOuts ++ [j]) v = .stopped sibling ∧
      sibling.resolve (below ++ place.segment :: place.rest) = .ok w

variable {front rest : Path} {choices : List Nat} {x : Document σ} {t : Segment}

/-- Where nothing stands before the segment, it is applied to the document. -/
theorem failsFirst_nil_iff :
    FailsFirst ⟨[], s, rest, choices, x⟩ v e ↔ choices = [] ∧ v = x ∧ v.resolve [s] = .error e := by
  constructor
  · intro h
    obtain rfl : v = x := Walk.stopped.inj h.reached
    exact ⟨List.length_eq_zero_iff.mp h.choices_length, rfl, h.raised⟩
  · rintro ⟨rfl, rfl, hraised⟩
    refine ⟨by simp, rfl, rfl, hraised, ?_⟩
    intro above fan below h
    simp at h

/-- An object segment leads on to one value. -/
theorem failsFirst_object_iff {child : Document σ} (hkind : t.kind = .object)
    (hwalk : ∀ rest choices, walk (t :: rest) choices v = walk rest choices child) :
    FailsFirst ⟨t :: front, s, rest, choices, x⟩ v e ↔
      FailsFirst ⟨front, s, rest, choices, x⟩ child e := by
  constructor
  · rintro ⟨hpass, hlen, hreach, hraised, hearlier⟩
    refine ⟨fun u hu => hpass u (List.mem_cons_of_mem t hu), ?_, ?_, hraised, ?_⟩
    · exact hlen.trans (Path.fanOuts_object hkind front)
    · exact (hwalk front choices).symm.trans hreach
    · rintro above fan below rfl hfan
      have h := hearlier (t :: above) fan below rfl hfan
      simpa only [Path.fanOuts_object hkind, List.cons_append, hwalk] using h
  · rintro ⟨hpass, hlen, hreach, hraised, hearlier⟩
    refine ⟨?_, ?_, ?_, hraised, ?_⟩
    · exact List.forall_mem_cons.mpr ⟨by simp [hkind], hpass⟩
    · exact hlen.trans (Path.fanOuts_object hkind front).symm
    · exact (hwalk front choices).trans hreach
    · intro above fan below h hfan
      cases above with
      | nil =>
        -- an object segment is no fan-out
        cases h
        rw [hkind] at hfan
        cases hfan
      | cons u above =>
        cases h
        simpa only [Path.fanOuts_object hkind, List.cons_append, hwalk]
          using hearlier above fan below rfl hfan

/-- A fan-out leads on to the element chosen, with the elements before it fine. -/
theorem failsFirst_fanOut_iff {before after : List (Document σ)} {item : Document σ}
    (h : t.action = .fanOut) (hitems : t.elements v = .ok (before ++ item :: after)) :
    FailsFirst ⟨t :: front, s, rest, before.length :: choices, x⟩ v e ↔
      (∀ y ∈ before, ∃ w, y.resolve (front ++ s :: rest) = .ok w) ∧
      FailsFirst ⟨front, s, rest, choices, x⟩ item e := by
  have hkind := Segment.action_eq_fanOut_iff.mp h
  have hstep : ∀ rest choices,
      walk (t :: rest) (before.length :: choices) v = walk rest choices item :=
    fun rest choices => walk_fanOut_cons rest choices h hitems (by simp)
  -- an earlier element is what the walk comes to that chooses it
  have hsibling : ∀ (j : Nat) (hj : j < before.length), walk [t] [j] v = .stopped before[j] :=
    fun j hj => walk_fanOut_cons [] [] h hitems
      (by rw [List.getElem?_append_left hj, List.getElem?_eq_getElem hj])
  constructor
  · rintro ⟨hpass, hlen, hreach, hraised, hearlier⟩
    refine ⟨?_, fun u hu => hpass u (List.mem_cons_of_mem t hu), ?_, ?_, hraised, ?_⟩
    · intro y hy
      obtain ⟨j, hj, rfl⟩ := List.getElem_of_mem hy
      obtain ⟨i, hi, hbefore⟩ := hearlier [] t front rfl hkind
      obtain rfl : before.length = i := by simpa using hi
      obtain ⟨sibling, w, hwalk, hw⟩ := hbefore j hj
      obtain rfl : before[j] = sibling := Walk.stopped.inj ((hsibling j hj).symm.trans hwalk)
      exact ⟨w, hw⟩
    · simpa only [List.length_cons, Path.fanOuts_array hkind, Nat.add_right_cancel_iff] using hlen
    · exact (hstep front choices).symm.trans hreach
    · rintro above fan below rfl hfan
      have hdown := hearlier (t :: above) fan below rfl hfan
      simpa only [Path.fanOuts_array hkind, List.getElem?_cons_succ, List.take_succ_cons,
        List.cons_append, hstep] using hdown
  · rintro ⟨hbefore, hpass, hlen, hreach, hraised, hearlier⟩
    refine ⟨?_, ?_, (hstep front choices).trans hreach, hraised, ?_⟩
    · exact List.forall_mem_cons.mpr ⟨by simp [hkind], hpass⟩
    · rw [List.length_cons, Path.fanOuts_array hkind, hlen]
    · intro above fan below hsplit hfan
      cases above with
      | nil =>
        cases hsplit
        refine ⟨before.length, rfl, fun j hj => ?_⟩
        obtain ⟨w, hw⟩ := hbefore before[j] (List.getElem_mem hj)
        exact ⟨before[j], w, hsibling j hj, hw⟩
      | cons u above =>
        cases hsplit
        simpa only [Path.fanOuts_array hkind, List.getElem?_cons_succ, List.take_succ_cons,
          List.cons_append, hstep] using hearlier above fan below rfl hfan

/-! ## Failing there -/

/-- A path that fails has a place where it fails first. -/
theorem exists_failsFirst (p : Path) : ∀ (v : Document σ) (e : ResolveError σ),
    v.resolve p = .error e → ∃ place : Place σ, place.path = p ∧ place.FailsFirst v e := by
  induction p with
  | nil => intro v e h; cases h
  | cons t p ih =>
    intro v e herr
    rcases Document.resolve_cons_eq_error_iff.mp herr with
      hraised | ⟨h, herr⟩ | ⟨h, child, hchild, herr⟩ | ⟨h, before, item, after, he, hbefore, herr⟩
    · exact ⟨⟨[], t, p, [], v⟩, rfl, failsFirst_nil_iff.mpr ⟨rfl, rfl, hraised⟩⟩
    · obtain ⟨⟨front, s, rest, choices, x⟩, rfl, hplace⟩ := ih v e herr
      exact ⟨⟨t :: front, s, rest, choices, x⟩, rfl,
        (failsFirst_object_iff (Segment.action_eq_root_iff.mp h).1
          fun rest choices => walk_root rest choices h).mpr hplace⟩
    · obtain ⟨⟨front, s, rest, choices, x⟩, rfl, hplace⟩ := ih child e herr
      exact ⟨⟨t :: front, s, rest, choices, x⟩, rfl,
        (failsFirst_object_iff (Segment.action_eq_descend_iff.mp h).1
          fun rest choices => walk_descend rest choices h hchild).mpr hplace⟩
    · obtain ⟨⟨front, s, rest, choices, x⟩, rfl, hplace⟩ := ih item e herr
      exact ⟨⟨t :: front, s, rest, before.length :: choices, x⟩, rfl,
        (failsFirst_fanOut_iff h he).mpr ⟨hbefore, hplace⟩⟩

/-- A path fails with what is raised at the place where it fails first. -/
theorem FailsFirst.resolve_eq_error {place : Place σ} (h : place.FailsFirst v e) :
    v.resolve place.path = .error e := by
  obtain ⟨front, s, rest, choices, x⟩ := place
  induction front generalizing v choices with
  | nil =>
    obtain ⟨_, _, hraised⟩ := failsFirst_nil_iff.mp h
    exact Document.resolve_cons_eq_error_iff.mpr (.inl hraised)
  | cons t front ih =>
    have hlit := h.passable t List.mem_cons_self
    have hreach := h.reached
    refine Document.resolve_cons_eq_error_iff.mpr (.inr ?_)
    cases ha : t.action with
    | verbatim => exact absurd (Segment.action_eq_verbatim_iff.mp ha).1 hlit
    | leaf => exact absurd (Segment.action_eq_leaf_iff.mp ha).1 hlit
    | root =>
      have hplace := (failsFirst_object_iff (Segment.action_eq_root_iff.mp ha).1
        fun rest choices => walk_root rest choices ha).mp h
      exact .inl ⟨rfl, ih choices hplace⟩
    | descend =>
      cases hf : v.field t.name with
      | error e' => rw [walk_descend_error front choices ha hf] at hreach; cases hreach
      | ok child =>
        have hplace := (failsFirst_object_iff (Segment.action_eq_descend_iff.mp ha).1
          fun rest choices => walk_descend rest choices ha hf).mp h
        exact .inr (.inl ⟨rfl, child, rfl, ih choices hplace⟩)
    | fanOut =>
      cases he : t.elements v with
      | error e' => rw [walk_fanOut_error front choices ha he] at hreach; cases hreach
      | ok items =>
        cases choices with
        | nil => rw [walk_fanOut_nil front ha he] at hreach; cases hreach
        | cons i choices =>
          cases hitem : items[i]? with
          | none => rw [walk_fanOut_outside front choices ha he hitem] at hreach; cases hreach
          | some item =>
            obtain ⟨before, after, rfl, rfl⟩ := exists_append_of_getElem? hitem
            obtain ⟨hbefore, hplace⟩ := (failsFirst_fanOut_iff ha he).mp h
            exact .inr (.inr ⟨rfl, before, item, after, rfl, hbefore, ih choices hplace⟩)

end Place

/-- **A path fails exactly with its first failure in document order, and the error is true.** There
is a place on the path that the walk gets to, whose segment raises the error on the value found
there, while at every fan-out on the way the elements before the one chosen resolve. What the error
says of that segment and that value is true. -/
theorem resolve_eq_error_iff_failsFirst (p : Path) (v : Document σ) (e : ResolveError σ) :
    v.resolve p = .error e ↔ ∃ place : Place σ, place.path = p ∧
      place.choices.length ≤ p.fanOuts ∧ place.FailsFirst v e ∧
      Truthful place.segment place.value e := by
  constructor
  · intro herr
    obtain ⟨place, rfl, h⟩ := Place.exists_failsFirst p v e herr
    refine ⟨place, rfl, ?_, h, .of_raised h.raised⟩
    rw [h.choices_length, Path.fanOuts_eq_countP h.passable, Place.path,
      Path.fanOuts_append h.passable]
    exact Nat.le_add_right _ _
  · rintro ⟨place, rfl, _, h, _⟩
    exact h.resolve_eq_error

end PropertyPath
