import Mathlib.Data.List.Forall2

/-!
# Collecting results

A fan-out collects one result for each element of an array, in order. Either every element has one,
or the first failure is the outcome of the whole.

* `mapM_eq_ok_iff` — collecting gives the results position by position
* `mapM_eq_error_iff` — collecting fails as the first failing element does, and with all elements
  before it fine
* `tried` — the elements that collecting gets to see
-/

namespace PropertyPath

variable {α β γ δ ε : Type}

/-! ## Sequencing -/

theorem bind_eq_ok_iff {x : Except ε α} {f : α → Except ε β} {b : β} :
    x >>= f = .ok b ↔ ∃ a, x = .ok a ∧ f a = .ok b := by
  cases x with
  | ok a => exact ⟨fun h => ⟨a, rfl, h⟩, fun ⟨_, ha, h⟩ => by cases ha; exact h⟩
  | error e => simp [bind, Except.bind]

theorem bind_eq_error_iff {x : Except ε α} {f : α → Except ε β} {e : ε} :
    x >>= f = .error e ↔ x = .error e ∨ ∃ a, x = .ok a ∧ f a = .error e := by
  cases x with
  | ok a => simp [bind, Except.bind]
  | error e => simp [bind, Except.bind]

/-! ## Lists -/

theorem mapM_eq_ok_iff {f : α → Except ε β} {items : List α} {found : List β} :
    items.mapM f = .ok found ↔ List.Forall₂ (fun a b => f a = .ok b) items found := by
  induction items generalizing found with
  | nil =>
    rw [List.mapM_nil, List.forall₂_nil_left_iff]
    exact ⟨fun h => (Except.ok.inj h).symm, fun h => by rw [h]; rfl⟩
  | cons a rest ih =>
    simp only [List.mapM_cons, bind_eq_ok_iff, List.forall₂_cons_left_iff, ih]
    constructor
    · rintro ⟨b, hb, bs, hbs, h⟩
      exact ⟨b, bs, hb, hbs, (Except.ok.inj h).symm⟩
    · rintro ⟨b, bs, hb, hbs, rfl⟩
      exact ⟨b, hb, bs, hbs, rfl⟩

theorem mapM_eq_error_iff {f : α → Except ε β} {items : List α} {e : ε} :
    items.mapM f = .error e ↔ ∃ before item after, items = before ++ item :: after ∧
      (∃ found, before.mapM f = .ok found) ∧ f item = .error e := by
  constructor
  · intro h
    induction items with
    | nil => rw [List.mapM_nil] at h; cases h
    | cons a rest ih =>
      rw [List.mapM_cons, bind_eq_error_iff] at h
      rcases h with ha | ⟨b, hb, h⟩
      · exact ⟨[], a, rest, rfl, ⟨[], rfl⟩, ha⟩
      · rcases bind_eq_error_iff.mp h with hrest | ⟨_, _, h⟩
        · obtain ⟨before, item, after, hsplit, ⟨found, hfound⟩, hitem⟩ := ih hrest
          refine ⟨a :: before, item, after, by rw [hsplit, List.cons_append], ⟨b :: found, ?_⟩,
            hitem⟩
          rw [List.mapM_cons, hb, hfound]
          rfl
        · cases h
  · rintro ⟨before, item, after, rfl, ⟨found, hfound⟩, hitem⟩
    rw [List.mapM_append, List.mapM_cons, hfound, hitem]
    rfl

/-- Collecting succeeds when it does on every element. -/
theorem exists_mapM_eq_ok_iff {f : α → Except ε β} {items : List α} :
    (∃ found, items.mapM f = .ok found) ↔ ∀ a ∈ items, ∃ b, f a = .ok b := by
  induction items with
  | nil => exact ⟨fun _ _ h => absurd h List.not_mem_nil, fun _ => ⟨[], rfl⟩⟩
  | cons a rest ih =>
    rw [List.forall_mem_cons, ← ih]
    simp only [mapM_eq_ok_iff, List.forall₂_cons_left_iff]
    constructor
    · rintro ⟨_, b, bs, hb, hbs, rfl⟩
      exact ⟨⟨b, hb⟩, bs, hbs⟩
    · rintro ⟨⟨b, hb⟩, bs, hbs⟩
      exact ⟨b :: bs, b, bs, hb, hbs, rfl⟩

theorem forall_ok_of_forall₂ {f : α → Except ε β} {items : List α} {found : List β}
    (h : List.Forall₂ (fun a b => f a = .ok b) items found) : ∀ a ∈ items, ∃ b, f a = .ok b :=
  exists_mapM_eq_ok_iff.mp ⟨found, mapM_eq_ok_iff.mpr h⟩

/-! ## Position by position -/

theorem mapM_congr_of_forall₂ {f : α → Except ε γ} {g : β → Except ε γ} {as : List α} {bs : List β}
    (h : List.Forall₂ (fun a b => f a = g b) as bs) : as.mapM f = bs.mapM g := by
  induction h with
  | nil => rfl
  | cons hab _ ih => rw [List.mapM_cons, List.mapM_cons, hab, ih]

theorem flatMap_congr_of_forall₂ {f : α → List γ} {g : β → List γ} {as : List α} {bs : List β}
    (h : List.Forall₂ (fun a b => f a = g b) as bs) : as.flatMap f = bs.flatMap g := by
  induction h with
  | nil => rfl
  | cons hab _ ih => rw [List.flatMap_cons, List.flatMap_cons, hab, ih]

theorem exists_append_of_getElem? {items : List α} {a : α} {i : Nat}
    (h : items[i]? = some a) :
    ∃ before after, items = before ++ a :: after ∧ before.length = i := by
  obtain ⟨hlt, rfl⟩ := List.getElem?_eq_some_iff.mp h
  refine ⟨items.take i, items.drop (i + 1), ?_, List.length_take_of_le (Nat.le_of_lt hlt)⟩
  rw [List.getElem_cons_drop, List.take_append_drop]

/-! ## Replaced results -/

/-- Replacing all results is collecting the replaced ones. -/
theorem map_mapM (g : β → γ) (f : α → Except ε β) (items : List α) :
    (items.mapM f).map (List.map g) = items.mapM fun a => (f a).map g := by
  induction items with
  | nil => rfl
  | cons a rest ih =>
    rw [List.mapM_cons, List.mapM_cons, ← ih]
    cases f a with
    | error e => rfl
    | ok b => cases rest.mapM f <;> rfl

/-! ## Lists of lists -/

theorem mapM_singleton_eq_error_iff {f : α → Except ε β} {a : α} {e : ε} :
    [a].mapM f = .error e ↔ f a = .error e := by
  rw [List.mapM_cons, List.mapM_nil, bind_eq_error_iff]
  simp [bind, Except.bind, pure, Except.pure]

/-- Collecting over lists of lists fails as collecting over all of them does. -/
theorem mapM_flatMap_eq_error_iff {f : β → Except ε γ} {g : α → List β} {h : α → Except ε δ}
    (hgh : ∀ a e, h a = .error e ↔ (g a).mapM f = .error e) (items : List α) (e : ε) :
    items.mapM h = .error e ↔ (items.flatMap g).mapM f = .error e := by
  induction items with
  | nil => simp [pure, Except.pure]
  | cons a rest ih =>
    rw [List.mapM_cons, List.flatMap_cons, List.mapM_append]
    cases ha : h a with
    | error e' => rw [(hgh a e').mp ha]; simp [bind, Except.bind]
    | ok b =>
      cases hg : (g a).mapM f with
      | error e' => rw [(hgh a e').mpr hg] at ha; cases ha
      | ok bs =>
        show (rest.mapM h >>= fun found => .ok (b :: found)) = .error e
          ↔ ((rest.flatMap g).mapM f >>= fun found => .ok (bs ++ found)) = .error e
        simp only [bind_eq_error_iff, ih, reduceCtorEq, and_false, exists_false, or_false]

/-! ## Up to the first failure -/

/-- The elements that are tried when results are collected: all up to the first that fails, and that
one too. -/
def tried (f : α → Except ε β) : List α → List α
  | [] => []
  | a :: rest =>
    match f a with
    | .ok _ => a :: tried f rest
    | .error _ => [a]

theorem tried_singleton (f : α → Except ε β) (a : α) : tried f [a] = [a] := by
  rw [tried]
  cases f a <;> rfl

theorem tried_of_ok {f : α → Except ε β} {items : List α} (h : ∀ a ∈ items, ∃ b, f a = .ok b) :
    tried f items = items := by
  induction items with
  | nil => rfl
  | cons a rest ih =>
    obtain ⟨⟨b, hb⟩, hrest⟩ := List.forall_mem_cons.mp h
    rw [tried, hb]
    exact congrArg _ (ih hrest)

theorem tried_of_error {f : α → Except ε β} {before : List α} {item : α} {e : ε}
    (hbefore : ∀ a ∈ before, ∃ b, f a = .ok b) (hitem : f item = .error e) (after : List α) :
    tried f (before ++ item :: after) = before ++ [item] := by
  induction before with
  | nil => rw [List.nil_append, tried, hitem]; rfl
  | cons a rest ih =>
    obtain ⟨⟨b, hb⟩, hrest⟩ := List.forall_mem_cons.mp hbefore
    rw [List.cons_append, tried, hb]
    exact congrArg _ (ih hrest)

end PropertyPath
