import Mathlib.Data.List.Forall2

/-!
# Fallible checks

Rules for `Except` programs made of checks: when a sequence, a check or a loop of checks succeeds.
-/

namespace Axton

/-- Continue only when the condition holds. -/
def check (c : Bool) (message : String) : Except String Unit :=
  if c then .ok () else .error message

@[simp] theorem check_ok {c : Bool} {m : String} {u : Unit} : check c m = .ok u ↔ c = true := by
  cases c <;> simp [check]

/-- A sequence succeeds exactly when both halves do. -/
@[simp] theorem bind_ok {ε α β : Type} {x : Except ε α} {f : α → Except ε β} {b : β} :
    (x >>= f) = .ok b ↔ ∃ a, x = .ok a ∧ f a = .ok b := by
  cases x with
  | error e => simp [bind, Except.bind]
  | ok a => simp [bind, Except.bind]

@[simp] theorem pure_ok {ε α : Type} {a b : α} : (pure a : Except ε α) = .ok b ↔ a = b := by
  simp [pure, Except.pure]

@[simp] theorem map_ok {ε α β : Type} {x : Except ε α} {f : α → β} {b : β} :
    x.map f = .ok b ↔ ∃ a, x = .ok a ∧ f a = b := by
  cases x <;> simp [Except.map]

/-- A loop of checks succeeds exactly when every check does. -/
@[simp] theorem forM_ok {ε α : Type} {f : α → Except ε Unit} {xs : List α} {u : Unit} :
    forM xs f = .ok u ↔ ∀ x ∈ xs, f x = .ok () := by
  induction xs with
  | nil => simp
  | cons x xs ih =>
    rw [List.forM_cons, bind_ok]
    constructor
    · rintro ⟨_, hx, hxs⟩
      simpa using ⟨hx, ih.1 hxs⟩
    · intro h
      exact ⟨(), h x (by simp), ih.2 fun y hy => h y (by simp [hy])⟩

/-- A loop that collects results succeeds exactly when every iteration does. -/
theorem mapM_ok {ε α β : Type} {f : α → Except ε β} {xs : List α} {ys : List β} :
    xs.mapM f = .ok ys ↔ List.Forall₂ (fun x y => f x = .ok y) xs ys := by
  induction xs generalizing ys with
  | nil =>
    constructor
    · intro h; simp only [List.mapM_nil, pure_ok] at h; subst h; exact .nil
    · intro h; cases h; rfl
  | cons x xs ih =>
    simp only [List.mapM_cons, bind_ok, pure_ok]
    constructor
    · rintro ⟨y, hy, ys', hys, rfl⟩
      exact .cons hy (ih.1 hys)
    · intro h
      cases h with
      | cons hy hys => exact ⟨_, hy, _, ih.2 hys, rfl⟩

/-- A loop that checks each element before it is mapped. -/
theorem mapM_checked {ε α β : Type} {c : α → Except ε Unit} {f : α → β} {xs : List α} {ys : List β} :
    (xs.mapM fun x => do
      c x
      return f x) = .ok ys ↔ (∀ x ∈ xs, c x = .ok ()) ∧ ys = xs.map f := by
  rw [mapM_ok]
  induction xs generalizing ys with
  | nil => simp
  | cons x xs ih =>
    rw [List.forall₂_cons_left_iff, List.forall_mem_cons, List.map_cons]
    constructor
    · rintro ⟨y, rest, hy, hrest, rfl⟩
      obtain ⟨⟨⟩, hx, hy⟩ := bind_ok.1 hy
      obtain ⟨hall, rfl⟩ := ih.1 hrest
      exact ⟨⟨hx, hall⟩, by rw [← pure_ok.1 hy]⟩
    · rintro ⟨⟨hx, hall⟩, rfl⟩
      exact ⟨_, _, bind_ok.2 ⟨(), hx, rfl⟩, ih.2 ⟨hall, rfl⟩, rfl⟩

/-- A loop that fails on none of its elements succeeds. -/
theorem mapM_total {ε α β : Type} {f : α → Except ε β} {xs : List α} (h : ∀ x ∈ xs, ∃ y, f x = .ok y) :
    ∃ ys, xs.mapM f = .ok ys := by
  induction xs with
  | nil => exact ⟨[], rfl⟩
  | cons x xs ih =>
    obtain ⟨y, hy⟩ := h x (by simp)
    obtain ⟨ys, hys⟩ := ih fun z hz => h z (by simp [hz])
    exact ⟨y :: ys, mapM_ok.2 (.cons hy (mapM_ok.1 hys))⟩

/-- A loop moves along a preorder that every iteration moves along. -/
theorem foldlM_rel {ε α β : Type} {R : β → β → Prop} (hrefl : ∀ b, R b b) (htrans : ∀ a b c, R a b → R b c → R a c)
    {f : β → α → Except ε β} {xs : List α} (step : ∀ x ∈ xs, ∀ b b', f b x = .ok b' → R b b') {b b' : β}
    (h : xs.foldlM f b = .ok b') : R b b' := by
  induction xs generalizing b with
  | nil =>
    simp only [List.foldlM_nil, pure_ok] at h
    exact h ▸ hrefl b
  | cons x xs ih =>
    simp only [List.foldlM_cons, bind_ok] at h
    obtain ⟨c, hc, h⟩ := h
    exact htrans b c b' (step x (by simp) b c hc) (ih (fun y hy => step y (by simp [hy])) h)

theorem toOption_eq_some {ε α : Type} {x : Except ε α} {a : α} : x.toOption = some a ↔ x = .ok a := by
  cases x <;> simp [Except.toOption]

/-- A result read off its evaluation. -/
theorem ok_of_toOption {ε α : Type} {x : Except ε α} {a : α} (h : x.toOption = some a) : x = .ok a :=
  toOption_eq_some.1 h

end Axton
