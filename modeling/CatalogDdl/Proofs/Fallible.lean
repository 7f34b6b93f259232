import Mathlib.Data.List.Forall2

/-!
# Results that may be errors

A chain of steps has a result if every step has one, and so has a list of results. Without a result
the error is that of the first step or item that fails.
-/
namespace CatalogDdl

variable {ε α β : Type}

theorem bind_eq_ok_iff {x : Except ε α} {f : α → Except ε β} {b : β} :
    (x >>= f) = .ok b ↔ ∃ a, x = .ok a ∧ f a = .ok b := by
  cases x <;> simp [bind, Except.bind]

theorem bind_eq_error_iff {x : Except ε α} {f : α → Except ε β} {e : ε} :
    (x >>= f) = .error e ↔ x = .error e ∨ ∃ a, x = .ok a ∧ f a = .error e := by
  cases x <;> simp [bind, Except.bind]

theorem isOk_iff {x : Except ε α} : x.isOk = true ↔ ∃ a, x = .ok a := by
  cases x <;> simp [Except.isOk, Except.toBool]

/-- There is a result under a condition that every result needs and every error excludes. -/
theorem exists_ok_iff_of {x : Except ε α} {p : Prop} (ho : ∀ a, x = .ok a → p)
    (he : ∀ e, x = .error e → ¬ p) :
    (∃ a, x = .ok a) ↔ p := by
  constructor
  · rintro ⟨a, ha⟩
    exact ho a ha
  · intro hp
    cases x with
    | ok a => exact ⟨a, rfl⟩
    | error e => exact absurd hp (he e rfl)

theorem mapError_eq_error_iff {δ : Type} {x : Except ε α} {f : ε → δ} {d : δ} :
    x.mapError f = .error d ↔ ∃ e, x = .error e ∧ d = f e := by
  cases x <;> simp [Except.mapError, eq_comm]

theorem mapError_eq_ok_iff {δ : Type} {x : Except ε α} {f : ε → δ} {a : α} :
    x.mapError f = .ok a ↔ x = .ok a := by
  cases x <;> simp [Except.mapError]

/-- Errors of a chain of steps may be changed step by step. -/
theorem mapError_bind {δ : Type} (x : Except ε α) (f : α → Except ε β) (g : ε → δ) :
    (x >>= f).mapError g = x.mapError g >>= fun a => (f a).mapError g := by
  cases x <;> rfl

def FailsBy (among : ε → Prop) (x : Except ε α) : Prop := ∀ e, x = .error e → among e

theorem FailsBy.ok (among : ε → Prop) (a : α) : FailsBy among (.ok a) := fun _ h => nomatch h

theorem FailsBy.bind {among : ε → Prop} {x : Except ε α} {f : α → Except ε β} (hx : FailsBy among x)
    (hf : ∀ a, FailsBy among (f a)) : FailsBy among (x >>= f) := by
  intro e h
  rcases bind_eq_error_iff.mp h with h | ⟨a, -, h⟩
  · exact hx e h
  · exact hf a e h

theorem FailsBy.mono {among others : ε → Prop} {x : Except ε α} (h : FailsBy among x)
    (ho : ∀ e, among e → others e) : FailsBy others x := fun e he => ho e (h e he)

/-- The error is that of the first item without a result. -/
def FirstError (f : α → Except ε β) (items : List α) (e : ε) : Prop :=
  ∃ before item after, items = before ++ item :: after ∧
    (∀ other ∈ before, ∃ result, f other = .ok result) ∧
    f item = .error e

theorem not_firstError_nil {f : α → Except ε β} {e : ε} :
    ¬ FirstError f [] e := by simp [FirstError]

/-- The first error is that of the first item, or it is the first one of the rest. -/
theorem firstError_cons_iff {f : α → Except ε β} {item : α} {rest : List α} {e : ε} :
    FirstError f (item :: rest) e ↔ f item = .error e ∨ (∃ result, f item = .ok result) ∧
    FirstError f rest e := by
  constructor
  · rintro ⟨before, other, after, hs, hb, ho⟩
    cases before with
    | nil =>
      obtain ⟨rfl, -⟩ := List.cons.inj hs
      exact .inl ho
    | cons first before =>
      obtain ⟨rfl, rfl⟩ := List.cons.inj hs
      rw [List.forall_mem_cons] at hb
      exact .inr ⟨hb.1, before, other, after, rfl, hb.2, ho⟩
  · rintro (h | ⟨hi, before, other, after, rfl, hb, ho⟩)
    · exact ⟨[], item, rest, rfl, by simp, h⟩
    · exact ⟨item :: before, other, after, rfl, List.forall_mem_cons.mpr ⟨hi, hb⟩, ho⟩

/-- The error is that of an item. -/
theorem FirstError.exists_item {f : α → Except ε β} {items : List α} {e : ε}
    (h : FirstError f items e) :
    ∃ item ∈ items, f item = .error e := by
  obtain ⟨before, item, after, rfl, -, hi⟩ := h
  exact ⟨item, by simp, hi⟩

/-- Where some item has no result, one of them is the first. -/
theorem exists_firstError_iff {f : α → Except ε β} {items : List α} :
    (∃ e, FirstError f items e) ↔ ∃ item ∈ items, ∃ e, f item = .error e := by
  induction items with
  | nil => simp [not_firstError_nil]
  | cons item rest ih =>
    cases hf : f item with
    | error e =>
      exact iff_of_true ⟨e, firstError_cons_iff.mpr (.inl hf)⟩ ⟨item, List.mem_cons_self, e, hf⟩
    | ok result => simp [firstError_cons_iff, hf, ih]

theorem mapM_eq_error_iff {f : α → Except ε β} {items : List α} {e : ε} :
    items.mapM f = .error e ↔ FirstError f items e := by
  induction items with
  | nil => simp [not_firstError_nil, pure, Except.pure]
  | cons item rest ih =>
    rw [firstError_cons_iff, ← ih, List.mapM_cons, bind_eq_error_iff]
    simp only [bind_eq_error_iff, pure, Except.pure, reduceCtorEq, and_false,
      exists_false, or_false]
    exact or_congr_right exists_and_right

/-- The results of a list stand at the places of the items they are of. -/
theorem mapM_eq_ok_iff {f : α → Except ε β} {items : List α} {results : List β} :
    items.mapM f = .ok results ↔
      List.Forall₂ (fun item result => f item = .ok result) items results := by
  induction items generalizing results with
  | nil => cases results <;> simp [pure, Except.pure]
  | cons item rest ih =>
    simp only [List.mapM_cons, bind_eq_ok_iff, pure, Except.pure, Except.ok.injEq, ih]
    constructor
    · rintro ⟨first, hf, others, ho, rfl⟩
      exact .cons hf ho
    · intro h
      cases h with
      | cons hf ho => exact ⟨_, hf, _, ho, rfl⟩

/-- Errors of a list may be changed item by item. -/
theorem mapM_mapError {δ : Type} (f : α → Except ε β) (g : ε → δ) (items : List α) :
    items.mapM (fun item => (f item).mapError g) = (items.mapM f).mapError g := by
  induction items with
  | nil => rfl
  | cons item rest ih =>
    rw [List.mapM_cons, List.mapM_cons, ih, mapError_bind]
    congr 1
    funext first
    rw [mapError_bind]
    rfl

/-- What stands in the second of two matched lists is matched with an item of the first. -/
theorem exists_left_of_mem {R : α → β → Prop} {items : List α} {others : List β}
    (h : List.Forall₂ R items others) {other : β} (ho : other ∈ others) :
    ∃ item ∈ items, R item other := by
  induction h with
  | nil => cases ho
  | cons hr _ ih =>
    rcases List.mem_cons.mp ho with rfl | ho
    · exact ⟨_, List.mem_cons_self, hr⟩
    · obtain ⟨item, hi, hr⟩ := ih ho
      exact ⟨item, List.mem_cons_of_mem _ hi, hr⟩

/-- Each result of a list is that of an item. -/
theorem exists_item_of_mem {f : α → Except ε β} {items : List α} {results : List β}
    (h : items.mapM f = .ok results) {result : β} (hr : result ∈ results) :
    ∃ item ∈ items, f item = .ok result :=
  exists_left_of_mem (mapM_eq_ok_iff.mp h) hr

/-- A list has results if and only if each of its items has one. -/
theorem exists_mapM_iff {f : α → Except ε β} {items : List α} :
    (∃ results, items.mapM f = .ok results) ↔ ∀ item ∈ items, ∃ result, f item = .ok result := by
  refine exists_ok_iff_of (fun results h item hi => ?_) fun e h ha => ?_
  · rw [mapM_eq_ok_iff] at h
    obtain ⟨result, -, hr⟩ := exists_left_of_mem h.flip hi
    exact ⟨result, hr⟩
  · obtain ⟨item, hi, he⟩ := (mapM_eq_error_iff.mp h).exists_item
    obtain ⟨result, hr⟩ := ha item hi
    rw [he] at hr
    cases hr

/-- Each item of a list has a result. -/
theorem exists_result_of_mem {f : α → Except ε β} {items : List α} {results : List β}
    (h : items.mapM f = .ok results) {item : α} (hi : item ∈ items) :
    ∃ result, f item = .ok result := by
  obtain ⟨result, -, hr⟩ := exists_left_of_mem (mapM_eq_ok_iff.mp h).flip hi
  exact ⟨result, hr⟩

/-- What the results share with the items they are of is the same list on both sides. -/
theorem map_results_eq {γ : Type} {f : α → Except ε β} {items : List α}
    {results : List β} {g : β → γ} {k : α → γ} (h : items.mapM f = .ok results)
    (hf : ∀ item ∈ items, ∀ result, f item = .ok result → g result = k item) :
    results.map g = items.map k := by
  rw [mapM_eq_ok_iff] at h
  induction h with
  | nil => rfl
  | cons hr _ ih =>
    rw [List.forall_mem_cons] at hf
    rw [List.map_cons, List.map_cons, hf.1 _ hr, ih hf.2]

end CatalogDdl
