import PropertyPath.Bindings.Basic

/-!
# What a map is through its lookups

* `get?_insert_self`, `get?_insert_of_ne` — a write is seen at its key and nowhere else
* `ext_get?` — two maps with the same lookups are equal, since a map has one chain only
* `keys_ascending` — the listed keys strictly ascend, so none is listed twice
* `get?_ofList_concat` — of repeated writes the last one is seen
-/

namespace PropertyPath

/-! ## Bounds -/

/-- What comes after a key above the bound is above the bound. -/
theorem Above.of_lt {bound : Option String} {key other : String} (above : Above bound key)
    (hlt : key < other) : Above bound other := by
  cases above with
  | unbounded => exact .unbounded
  | after h => exact .after (String.lt_trans h hlt)

theorem Above.lt {b key : String} (above : Above (some b) key) : b < key := by
  cases above with
  | after h => exact h

namespace Bindings

variable {α : Type} {bound : Option String}

/-! ## Lookup after a write -/

@[simp] theorem get?_nil (key : String) : (nil : Bindings α bound).get? key = none := rfl

theorem get?_cons (key k : String) (above : Above bound k) (value : α)
    (rest : Bindings α (some k)) :
    (cons k above value rest).get? key = if key = k then some value else rest.get? key := rfl

theorem get?_insert_self (key : String) (value : α) (above : Above bound key)
    (fields : Bindings α bound) : (fields.insert key value above).get? key = some value := by
  induction fields with
  | nil => simp [insert, get?_cons]
  | cons k hk v rest ih =>
    unfold insert
    split
    · next heq => simp [get?_cons, heq]
    · next heq =>
      split
      · simp [get?_cons]
      · simp [get?_cons, heq, ih]

theorem get?_insert_of_ne {key other : String} (hne : other ≠ key) (value : α)
    (above : Above bound key) (fields : Bindings α bound) :
    (fields.insert key value above).get? other = fields.get? other := by
  induction fields with
  | nil => simp [insert, get?_cons, hne]
  | cons k hk v rest ih =>
    unfold insert
    split
    · next heq => simp [get?_cons, ← heq, hne]
    · split
      · simp [get?_cons, hne]
      · simp [get?_cons, ih]

/-- **A write is seen at its own key and changes no other.** -/
theorem get?_set (fields : Fields α) (key other : String) (value : α) :
    (fields.set key value).get? other = if other = key then some value else fields.get? other := by
  unfold set
  split
  · next heq => rw [heq, get?_insert_self]
  · next hne => exact get?_insert_of_ne hne value .unbounded fields

/-! ## One chain for each map -/

theorem above_of_get? {fields : Bindings α bound} {key : String} {value : α}
    (h : fields.get? key = some value) : Above bound key := by
  induction fields with
  | nil => simp at h
  | cons k hk v rest ih =>
    rw [get?_cons] at h
    split at h
    · next heq => rw [heq]; exact hk
    · exact Above.of_lt hk (ih h).lt

/-- The key that bounds the rest of a chain is not bound in that rest. -/
theorem get?_bound (key : String) (rest : Bindings α (some key)) : rest.get? key = none := by
  cases h : rest.get? key with
  | none => rfl
  | some value => exact absurd (above_of_get? h).lt (String.lt_irrefl key)

/-- **Maps with the same lookups are equal.** -/
theorem ext_get? {fields others : Bindings α bound}
    (h : ∀ key, fields.get? key = others.get? key) : fields = others := by
  induction fields with
  | nil =>
    cases others with
    | nil => rfl
    | cons k hk v rest => simpa [get?_cons] using h k
  | cons k hk v rest ih =>
    cases others with
    | nil => simpa [get?_cons] using h k
    | cons k' hk' v' rest' =>
      have hkey : k = k' := by
        by_cases heq : k = k'
        · exact heq
        · have hself := h k
          have hother := h k'
          rw [get?_cons, get?_cons, if_pos rfl, if_neg heq] at hself
          rw [get?_cons, get?_cons, if_pos rfl, if_neg (Ne.symm heq)] at hother
          exact absurd (above_of_get? hself.symm).lt (String.lt_asymm (above_of_get? hother).lt)
      subst hkey
      have hv := h k
      simp only [get?_cons, if_pos, Option.some.injEq] at hv
      have hrest : rest = rest' := ih fun key => by
        by_cases heq : key = k
        · rw [heq, get?_bound, get?_bound]
        · have hk' := h key
          rwa [get?_cons, get?_cons, if_neg heq, if_neg heq] at hk'
      rw [hv, hrest]

/-! ## Order of the keys -/

theorem above_of_mem_keys {fields : Bindings α bound} {key : String} (h : key ∈ fields.keys) :
    Above bound key := by
  induction fields with
  | nil => simp [keys, toList] at h
  | cons k hk v rest ih =>
    simp only [keys, toList, List.map_cons, List.mem_cons] at h
    rcases h with heq | hmem
    · rw [heq]; exact hk
    · exact Above.of_lt hk (ih hmem).lt

/-- **The keys are listed in strictly ascending order.** -/
theorem keys_ascending (fields : Bindings α bound) : fields.keys.Pairwise (· < ·) := by
  induction fields with
  | nil => exact List.Pairwise.nil
  | cons k hk v rest ih => exact List.Pairwise.cons (fun _ hmem => (above_of_mem_keys hmem).lt) ih

/-! ## Maps from lists of writes -/

@[simp] theorem ofList_nil : (ofList [] : Fields α) = nil := rfl

theorem ofList_concat (writes : List (String × α)) (key : String) (value : α) :
    ofList (writes ++ [(key, value)]) = (ofList writes).set key value := by
  simp [ofList, List.foldl_append]

theorem get?_ofList_concat (writes : List (String × α)) (key other : String) (value : α) :
    (ofList (writes ++ [(key, value)])).get? other
      = if other = key then some value else (ofList writes).get? other := by
  rw [ofList_concat, get?_set]

end Bindings

end PropertyPath
