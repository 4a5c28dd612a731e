import Mathlib.Order.Defs.Unbundled

/-!
# Transactions that carry their frame

A `Within R α` is a fallible transaction on a state `σ` together with a proof that every
successful run moves the state inside the preorder `R`. Programs written in it with `do` need no
frame lemma of their own: what a composite action may change is read off its type, and only the
primitive writes are proved. `Within.widen` enters a coarser relation, so a program of one layer
can call the programs of the layer below.

A failed run returns no state: the enclosing transaction is rolled back, so nothing is said (and
nothing is kept) about the states it went through.
-/

namespace Axton

/-- A transaction whose successful runs stay inside `R`. -/
structure Within {σ : Type} (R : σ → σ → Prop) (α : Type) where
  run : σ → Except String (α × σ)
  within : ∀ {s a s'}, run s = .ok (a, s') → R s s'

namespace Within

variable {σ : Type} {R R' : σ → σ → Prop} {α β : Type}

@[ext] theorem ext {x y : Within R α} (h : ∀ s, x.run s = y.run s) : x = y := by
  obtain ⟨f, _⟩ := x
  obtain ⟨g, _⟩ := y
  obtain rfl : f = g := funext h
  rfl

/-- Stop with an error message. -/
def fail (message : String) : Within R α := ⟨fun _ => .error message, by simp⟩

/-- Enter a coarser relation. -/
def widen (h : ∀ s s', R s s' → R' s s') (x : Within R α) : Within R' α :=
  ⟨x.run, fun hr => h _ _ (x.within hr)⟩

section
variable [IsPreorder σ R]

protected def pure (a : α) : Within R α :=
  ⟨fun s => .ok (a, s), by rintro s a s' h; cases h; exact refl_of R s⟩

protected def bind (x : Within R α) (f : α → Within R β) : Within R β where
  run s := match x.run s with
    | .error e => .error e
    | .ok (a, s') => (f a).run s'
  within := by
    intro s b s'' h
    cases hx : x.run s with
    | error e => simp [hx] at h
    | ok p =>
      simp only [hx] at h
      exact trans_of R (x.within hx) ((f p.1).within h)

instance : Monad (Within R) where
  pure := Within.pure
  bind := Within.bind

/-- The current state. -/
def read : Within R σ := ⟨fun s => .ok (s, s), by rintro s a s' h; cases h; exact refl_of R s⟩

/-- A read-only computation that may fail. -/
def ask (f : σ → Except String α) : Within R α where
  run s := (f s).map fun a => (a, s)
  within := by
    intro s a s' h
    cases hf : f s with
    | error e => simp [hf, Except.map] at h
    | ok b => simp only [hf, Except.map, Except.ok.injEq, Prod.mk.injEq] at h; rw [← h.2]; exact refl_of R s

/-- A computation that does not look at the state. -/
def lift (x : Except String α) : Within R α := ask fun _ => x

/-- Continue only when the condition holds. -/
def require (c : Bool) (message : String) : Within R Unit :=
  ⟨fun s => if c then .ok ((), s) else .error message, by
    intro s a s' h; split at h
    · cases h; exact refl_of R s
    · cases h⟩

end

/-- A primitive write: every state it leads to is `R`-related to the one before. -/
def write (f : σ → σ) (h : ∀ s, R s (f s)) : Within R Unit :=
  ⟨fun s => .ok ((), f s), by rintro s a s' e; cases e; exact h s⟩

/-! ## Running a program -/

section
variable [IsPreorder σ R]

@[simp] theorem run_pure (a : α) (s : σ) : (pure a : Within R α).run s = .ok (a, s) := rfl

theorem run_bind (x : Within R α) (f : α → Within R β) (s : σ) :
    (x >>= f).run s = match x.run s with
      | .error e => .error e
      | .ok (a, s') => (f a).run s' := rfl

/-- A sequence succeeds exactly when both halves do. -/
@[simp] theorem run_bind_ok {x : Within R α} {f : α → Within R β} {s s'' : σ} {b : β} :
    (x >>= f).run s = .ok (b, s'') ↔ ∃ a s', x.run s = .ok (a, s') ∧ (f a).run s' = .ok (b, s'') := by
  rw [run_bind]
  cases hx : x.run s with
  | error e => simp
  | ok p =>
    constructor
    · intro h; exact ⟨p.1, p.2, rfl, h⟩
    · rintro ⟨a, s', h1, h2⟩; cases h1; exact h2

@[simp] theorem run_read {s s' a : σ} : (read : Within R σ).run s = .ok (a, s') ↔ s = a ∧ s = s' := by
  simp [read]

@[simp] theorem run_ask {f : σ → Except String α} {s s' : σ} {a : α} :
    (ask f : Within R α).run s = .ok (a, s') ↔ f s = .ok a ∧ s = s' := by
  cases hf : f s <;> simp [ask, hf, Except.map]

@[simp] theorem run_lift {x : Except String α} {s s' : σ} {a : α} :
    (lift x : Within R α).run s = .ok (a, s') ↔ x = .ok a ∧ s = s' := by
  simp [lift]

@[simp] theorem run_require {c : Bool} {m : String} {s s' : σ} {a : Unit} :
    (require c m : Within R Unit).run s = .ok (a, s') ↔ c = true ∧ s = s' := by
  cases c <;> simp [require]

end

@[simp] theorem run_fail {m : String} {s s' : σ} {a : α} :
    (fail m : Within R α).run s = .ok (a, s') ↔ False := by
  simp [fail]

@[simp] theorem run_write {f : σ → σ} {h : ∀ s, R s (f s)} {s s' : σ} {a : Unit} :
    (write f h).run s = .ok (a, s') ↔ f s = s' := by
  simp [write]

@[simp] theorem run_widen {h : ∀ s s', R s s' → R' s s'} {x : Within R α} (s : σ) :
    (widen h x).run s = x.run s := rfl

/-! ## Loops -/

section
variable [IsPreorder σ R]

@[simp] theorem run_forM_nil (f : α → Within R PUnit) {s s' : σ} {u : PUnit} :
    (forM ([] : List α) f).run s = .ok (u, s') ↔ s = s' := by
  simp

@[simp] theorem run_forM_cons (f : α → Within R PUnit) (x : α) (xs : List α) {s s' : σ} {u : PUnit} :
    (forM (x :: xs) f).run s = .ok (u, s') ↔
      ∃ s₁, (f x).run s = .ok (⟨⟩, s₁) ∧ (forM xs f).run s₁ = .ok (u, s') := by
  rw [List.forM_cons, run_bind_ok]
  constructor
  · rintro ⟨⟨⟩, s₁, h⟩; exact ⟨s₁, h⟩
  · rintro ⟨s₁, h⟩; exact ⟨⟨⟩, s₁, h⟩

/-- The loop rule: an invariant of the state and of what is left to do, kept by each iteration. -/
theorem forM_inv (P : List α → σ → Prop) (f : α → Within R PUnit)
    (step : ∀ x xs s s', P (x :: xs) s → (f x).run s = .ok (⟨⟩, s') → P xs s') :
    ∀ (l : List α) {s s' : σ} {u : PUnit}, P l s → (forM l f).run s = .ok (u, s') → P [] s'
  | [], s, s', u, hp, h => by
    obtain rfl := (run_forM_nil f).1 h
    exact hp
  | x :: xs, s, s', u, hp, h => by
    obtain ⟨s₁, h1, h2⟩ := (run_forM_cons f x xs).1 h
    exact forM_inv P f step xs (step x xs s s₁ hp h1) h2

@[simp] theorem run_foldlM_nil (f : β → α → Within R β) (b : β) {s s' : σ} {c : β} :
    (([] : List α).foldlM f b).run s = .ok (c, s') ↔ b = c ∧ s = s' := by
  simp

@[simp] theorem run_foldlM_cons (f : β → α → Within R β) (b : β) (x : α) (xs : List α) {s s' : σ} {c : β} :
    ((x :: xs).foldlM f b).run s = .ok (c, s') ↔
      ∃ b₁ s₁, (f b x).run s = .ok (b₁, s₁) ∧ (xs.foldlM f b₁).run s₁ = .ok (c, s') := by
  simp

/-- The loop rule for a loop with an accumulator. -/
theorem foldlM_inv (P : List α → β → σ → Prop) (f : β → α → Within R β)
    (step : ∀ x xs b s b' s', P (x :: xs) b s → (f b x).run s = .ok (b', s') → P xs b' s') :
    ∀ (l : List α) {b : β} {s s' : σ} {c : β}, P l b s → (l.foldlM f b).run s = .ok (c, s') → P [] c s'
  | [], b, s, s', c, hp, h => by
    obtain ⟨rfl, rfl⟩ := (run_foldlM_nil f b).1 h
    exact hp
  | x :: xs, b, s, s', c, hp, h => by
    obtain ⟨b₁, s₁, h1, h2⟩ := (run_foldlM_cons f b x xs).1 h
    exact foldlM_inv P f step xs (step x xs b s b₁ s₁ hp h1) h2

end

end Within

end Axton
