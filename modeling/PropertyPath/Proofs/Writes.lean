import Mathlib.Data.List.Induction
import Mathlib.Data.List.Nodup
import PropertyPath.Bindings.Lemmas

/-!
# Maps filled by writes

A map that is filled by a list of writes is known by the last write to each key. How its entries are
listed, when it is iterated, is not known: any order that has each key once will do.

* `lastWrite`, `Bindings.get?_ofList` — a lookup sees the last write
* `Bindings.ofList_eq_iff` — maps are equal when the last writes are
* `Lists` — entries of the map, in some order
* `Lists.ofList_eq` — a map that is filled by the entries again is the same map
* `Lists.eq_of_ascending` — there is one listing in ascending order
-/

namespace PropertyPath

variable {α β : Type}

/-! ## Last writes -/

/-- What was written to a key last. -/
def lastWrite (writes : List (String × α)) (key : String) : Option α := writes.reverse.lookup key

theorem lastWrite_concat (writes : List (String × α)) (key other : String) (value : α) :
    lastWrite (writes ++ [(key, value)]) other
      = if other = key then some value else lastWrite writes other := by
  rw [lastWrite, List.reverse_append, List.reverse_singleton, List.singleton_append,
    List.lookup_cons]
  by_cases h : other = key
  · rw [if_pos h, h, beq_self_eq_true]
  · rw [if_neg h, beq_false_of_ne h, lastWrite]

theorem mem_of_lastWrite {writes : List (String × α)} {key : String} {value : α}
    (h : lastWrite writes key = some value) : (key, value) ∈ writes := by
  obtain ⟨before, after, hsplit, -⟩ := List.lookup_eq_some_iff.mp h
  rw [← List.mem_reverse, hsplit]
  exact List.mem_append_right _ List.mem_cons_self

theorem lastWrite_map (f : α → β) (writes : List (String × α)) (key : String) :
    lastWrite (writes.map (Prod.map id f)) key = (lastWrite writes key).map f := by
  induction writes using List.reverseRecOn with
  | nil => rfl
  | append_singleton rest write ih =>
    have hmap : (rest ++ [write]).map (Prod.map id f)
        = rest.map (Prod.map id f) ++ [(write.1, f write.2)] := List.map_append
    rw [hmap, lastWrite_concat, lastWrite_concat, ih, apply_ite (Option.map f), Option.map_some]

/-- **A lookup in a map sees the last write.** -/
theorem Bindings.get?_ofList (writes : List (String × α)) (key : String) :
    (Bindings.ofList writes).get? key = lastWrite writes key := by
  induction writes using List.reverseRecOn with
  | nil => rfl
  | append_singleton rest write ih =>
    rw [Bindings.get?_ofList_concat, lastWrite_concat, ih]

theorem Bindings.ofList_eq_iff {writes others : List (String × α)} :
    Bindings.ofList writes = Bindings.ofList others ↔
      ∀ key, lastWrite writes key = lastWrite others key := by
  constructor
  · intro h key
    rw [← Bindings.get?_ofList, h, Bindings.get?_ofList]
  · intro h
    refine Bindings.ext_get? fun key => ?_
    rw [Bindings.get?_ofList, Bindings.get?_ofList, h]

/-! ## Entries -/

/-- The entries of the map that writes leave behind, in some order. -/
structure Lists (entries writes : List (String × α)) : Prop where
  /-- Each key is listed once. -/
  nodup : (entries.map Prod.fst).Nodup
  /-- It is listed with what was written to it last. -/
  mem_iff : ∀ key value, (key, value) ∈ entries ↔ lastWrite writes key = some value

/-- Entries list themselves when each key occurs once. -/
theorem Lists.refl {entries : List (String × α)} (h : (entries.map Prod.fst).Nodup) :
    Lists entries entries := by
  refine ⟨h, fun key value => ⟨fun hmem => ?_, mem_of_lastWrite⟩⟩
  induction entries using List.reverseRecOn with
  | nil => cases hmem
  | append_singleton rest write ih =>
    rw [List.map_append, List.map_singleton, List.nodup_append] at h
    obtain ⟨hrest, -, hnew⟩ := h
    rw [lastWrite_concat]
    rcases List.mem_append.mp hmem with hmem | hmem
    -- an earlier entry is not hidden by the last one
    · have hne : key ≠ write.1 :=
        hnew key (List.mem_map_of_mem (f := Prod.fst) hmem) _ List.mem_cons_self
      rw [if_neg hne]
      exact ih hrest hmem
    · obtain rfl : (key, value) = write := List.mem_singleton.mp hmem
      exact if_pos rfl

namespace Lists

variable {entries writes : List (String × α)}

/-- Writing the entries again, in any order, makes the same map. -/
theorem ofList_eq (h : Lists entries writes) :
    Bindings.ofList entries = Bindings.ofList writes := by
  refine Bindings.ofList_eq_iff.mpr fun key => Option.ext fun value => ?_
  rw [← (Lists.refl h.nodup).mem_iff, h.mem_iff]

theorem mem_writes (h : Lists entries writes) : ∀ entry ∈ entries, entry ∈ writes :=
  fun entry hmem => mem_of_lastWrite ((h.mem_iff entry.1 entry.2).mp hmem)

/-- There is one way only to list the entries in ascending order. -/
theorem eq_of_ascending {others : List (String × α)} (h : Lists entries writes)
    (h' : Lists others writes) (hasc : (entries.map Prod.fst).Pairwise (· < ·))
    (hasc' : (others.map Prod.fst).Pairwise (· < ·)) : entries = others := by
  have hperm : entries.Perm others := by
    refine (List.perm_ext_iff_of_nodup (.of_map _ h.nodup) (.of_map _ h'.nodup)).mpr fun entry => ?_
    exact (h.mem_iff entry.1 entry.2).trans (h'.mem_iff entry.1 entry.2).symm
  refine hperm.eq_of_pairwise (fun a b _ _ hab hba => ?_) (List.pairwise_map.mp hasc)
    (List.pairwise_map.mp hasc')
  exact absurd hba (String.lt_asymm hab)

end Lists

theorem Bindings.mem_toList_iff {bound : Option String} {fields : Bindings α bound} {key : String}
    {value : α} : (key, value) ∈ fields.toList ↔ fields.get? key = some value := by
  induction fields with
  | nil => simp [Bindings.toList]
  | cons k above v rest ih =>
    rw [Bindings.toList, List.mem_cons, ih, Bindings.get?_cons, Prod.mk.injEq]
    split
    · next heq => simp [heq, Bindings.get?_bound, eq_comm]
    · next hne => simp [hne]

theorem nodup_of_ascending {keys : List String} (h : keys.Pairwise (· < ·)) : keys.Nodup := by
  refine h.imp ?_
  rintro key _ hlt rfl
  exact String.lt_irrefl key hlt

/-- A map is listed by its own bindings, in ascending order. -/
theorem lists_toList (writes : List (String × α)) :
    Lists (Bindings.ofList writes).toList writes where
  nodup := nodup_of_ascending (Bindings.keys_ascending _)
  mem_iff key value := by rw [Bindings.mem_toList_iff, Bindings.get?_ofList]

/-- Entries in ascending order are what their map is listed by. -/
theorem Bindings.toList_ofList {entries : List (String × α)}
    (h : (entries.map Prod.fst).Pairwise (· < ·)) : (Bindings.ofList entries).toList = entries :=
  (lists_toList entries).eq_of_ascending (.refl (nodup_of_ascending h))
    (Bindings.keys_ascending _) h

end PropertyPath
