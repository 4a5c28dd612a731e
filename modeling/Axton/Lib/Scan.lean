import Mathlib.Data.List.Basic

/-!
# Readers of token lists

A recursive-descent reader takes tokens from the front of a list and fails with a message. Its loops are bounded by the
tokens that are left, which is enough when a round takes at least one (`Agree.loop`).

`Agree` compares two readers on two token lists: they stay in states that are related, both succeed with related results or
both fail with related messages. With equal lists it says what one reader returns and how it fails.
-/

namespace Axton

abbrev Scan (τ α : Type) := StateT (List τ) (Except String) α

namespace Scan

variable {τ σ α β α' β' : Type}

/-- `while more { step }`, for at most that many rounds. -/
def rounds (more : Scan τ Bool) (step : σ → Scan τ σ) : Nat → σ → Scan τ σ
  | 0, _ => throw "out of rounds"
  | n + 1, s => do if ← more then rounds more step n (← step s) else return s

/-- `while more { step }`. -/
def loop (more : Scan τ Bool) (step : σ → Scan τ σ) (s : σ) : Scan τ σ := do
  rounds more step ((← get).length + 1) s

@[simp] theorem run_get (ts : List τ) : (get : Scan τ (List τ)).run ts = .ok (ts, ts) := rfl

@[simp] theorem run_set (ts us : List τ) : (set us : Scan τ Unit).run ts = .ok ((), us) := rfl

@[simp] theorem run_pure (x : α) (ts : List τ) : (pure x : Scan τ α).run ts = .ok (x, ts) := rfl

@[simp] theorem run_throw (e : String) (ts : List τ) : (throw e : Scan τ α).run ts = .error e := rfl

theorem run_bind (p : Scan τ α) (f : α → Scan τ β) (ts : List τ) :
    (p >>= f).run ts = match p.run ts with
      | .ok (x, us) => (f x).run us
      | .error e => .error e := by
  show (p.run ts >>= fun r => (f r.1).run r.2) = _
  cases p.run ts <;> rfl

/-- A step of a run that is known. -/
theorem run_bind_ok {p : Scan τ α} {f : α → Scan τ β} {ts us : List τ} {x : α} (h : p.run ts = .ok (x, us)) :
    (p >>= f).run ts = (f x).run us := by
  rw [run_bind, h]

/-! ## Reading back -/

/-- More rounds than are needed change nothing. -/
theorem rounds_succ {more : Scan τ Bool} {step : σ → Scan τ σ} {n : Nat} {s : σ} {ts : List τ} {r : σ × List τ}
    (h : (rounds more step n s).run ts = .ok r) : (rounds more step (n + 1) s).run ts = .ok r := by
  induction n generalizing s ts with
  | zero => cases h
  | succ n ih =>
    rw [rounds, run_bind] at h ⊢
    cases hmore : more.run ts with
    | error e =>
      rw [hmore] at h
      cases h
    | ok m =>
      rw [hmore] at h
      obtain ⟨go, ts'⟩ := m
      cases go with
      | false => exact h
      | true =>
        change (step s >>= rounds more step n).run ts' = .ok r at h
        show (step s >>= rounds more step (n + 1)).run ts' = .ok r
        rw [run_bind] at h ⊢
        cases hstep : (step s).run ts' with
        | error e =>
          rw [hstep] at h
          cases h
        | ok q =>
          rw [hstep] at h
          exact ih h

theorem rounds_le {more : Scan τ Bool} {step : σ → Scan τ σ} {n m : Nat} {s : σ} {ts : List τ} {r : σ × List τ}
    (h : (rounds more step n s).run ts = .ok r) (hnm : n ≤ m) : (rounds more step m s).run ts = .ok r := by
  induction hnm with
  | refl => exact h
  | step _ ih => exact rounds_succ ih

theorem loop_stop {more : Scan τ Bool} {step : σ → Scan τ σ} {s : σ} {ts us : List τ}
    (h : more.run ts = .ok (false, us)) :
    (loop more step s).run ts = .ok (s, us) := by
  unfold loop
  rw [run_bind_ok (run_get ts), rounds, run_bind_ok h]
  rfl

/-- A round that takes a token or more, and what the rest of the loop does. -/
theorem loop_round {more : Scan τ Bool} {step : σ → Scan τ σ} {s s' : σ} {ts ts' us : List τ} {r : σ × List τ}
    (hmore : more.run ts = .ok (true, ts')) (hstep : (step s).run ts' = .ok (s', us))
    (hlen : us.length < ts.length)
    (h : (loop more step s').run us = .ok r) : (loop more step s).run ts = .ok r := by
  unfold loop at h ⊢
  rw [run_bind_ok (run_get us)] at h
  rw [run_bind_ok (run_get ts), rounds, run_bind_ok hmore]
  show (step s >>= rounds more step ts.length).run ts' = .ok r
  rw [run_bind_ok hstep]
  exact rounds_le h hlen

/-- The reader takes `us` for `x` as long as `F` holds of what follows. -/
def Reads (F : List τ → Prop) (p : Scan τ α) (x : α) (us : List τ) : Prop :=
  ∀ rest, F rest → p.run (us ++ rest) = .ok (x, rest)

namespace Reads

variable {F G : List τ → Prop} {p : Scan τ α} {f : α → Scan τ β} {x : α} {y : β} {us vs : List τ}

theorem weaken (h : Reads F p x us) (hF : ∀ rest, G rest → F rest) : Reads G p x us :=
  fun rest hrest => h rest (hF rest hrest)

theorem pure : Reads F (Pure.pure x : Scan τ α) x [] := fun _ _ => rfl

theorem bind (h : Reads F p x us) (hf : Reads G (f x) y vs) (hF : ∀ rest, G rest → F (vs ++ rest)) :
    Reads G (p >>= f) y (us ++ vs) := by
  intro rest hrest
  rw [List.append_assoc, run_bind_ok (h _ (hF rest hrest))]
  exact hf rest hrest

/-- A loop goes on as long as `more` sees what a round takes. -/
theorem round {more : Scan τ Bool} {step : σ → Scan τ σ} {s s' s'' : σ}
    (hmore : ∀ rest, more.run (us ++ rest) = .ok (true, us ++ rest))
    (hus : us ≠ []) (h : Reads F (step s) s' us) (hloop : Reads G (loop more step s') s'' vs)
    (hF : ∀ rest, G rest → F (vs ++ rest)) : Reads G (loop more step s) s'' (us ++ vs) := by
  intro rest hrest
  rw [List.append_assoc]
  refine loop_round (hmore _) (h _ (hF rest hrest)) ?_ (hloop rest hrest)
  have hpos := List.length_pos_iff.2 hus
  have hsplit : (us ++ (vs ++ rest)).length = us.length + (vs ++ rest).length := List.length_append
  omega

end Reads

/-! ## Two readers side by side -/

/-- What two runs leave: related results in related states, `k` tokens or more taken, or related messages. -/
def Outcomes (S : List τ → List τ → Prop) (E : String → String → Prop) (k : Nat) (R : α → β → Prop)
    (ts : List τ) :
    Except String (α × List τ) → Except String (β × List τ) → Prop
  | .ok (x, ts'), .ok (y, us') => R x y ∧ S ts' us' ∧ ts'.length + k ≤ ts.length
  | .error e, .error f => E e f
  | _, _ => False

/-- On related lists of at most `b` tokens the two readers have related outcomes. -/
def Agree (S : List τ → List τ → Prop) (E : String → String → Prop) (b k : Nat) (R : α → β → Prop)
    (p : Scan τ α)
    (q : Scan τ β) : Prop :=
  ∀ ts us, S ts us → ts.length ≤ b → Outcomes S E k R ts (p.run ts) (q.run us)

variable {S : List τ → List τ → Prop} {E : String → String → Prop} {b k l : Nat} {R : α → β → Prop}
  {Q : α' → β' → Prop}

theorem Outcomes.weaken {R' : α → β → Prop} {ts : List τ} {x : Except String (α × List τ)}
    {y : Except String (β × List τ)}
    (h : Outcomes S E k R ts x y) (hl : l ≤ k) (hR : ∀ a b, R a b → R' a b) : Outcomes S E l R' ts x y := by
  cases x <;> cases y
  · exact h
  · exact h
  · exact h
  · obtain ⟨hr, hs, hlen⟩ := h
    exact ⟨hR _ _ hr, hs, by omega⟩

/-- What the tokens taken before add. -/
theorem Outcomes.after {ts ts' : List τ} {x : Except String (α × List τ)} {y : Except String (β × List τ)}
    (h : Outcomes S E l R ts' x y) (hlen : ts'.length + k ≤ ts.length) : Outcomes S E (k + l) R ts x y := by
  cases x <;> cases y
  · exact h
  · exact h
  · exact h
  · obtain ⟨hr, hs, hlen'⟩ := h
    exact ⟨hr, hs, by omega⟩

/-- What the first readers take, the second ones find gone. -/
theorem Outcomes.bind {p : Scan τ α} {q : Scan τ β} {f : α → Scan τ α'} {g : β → Scan τ β'} {ts us : List τ}
    (h : Outcomes S E k R ts (p.run ts) (q.run us)) (hb : ts.length ≤ b)
    (hf : ∀ x y, R x y → k ≤ b → Agree S E (b - k) l Q (f x) (g y)) :
    Outcomes S E (k + l) Q ts ((p >>= f).run ts) ((q >>= g).run us) := by
  rw [run_bind, run_bind]
  cases hp : p.run ts with
  | error e =>
    cases hq : q.run us with
    | error e' =>
      rw [hp, hq] at h
      exact h
    | ok r =>
      rw [hp, hq] at h
      exact h.elim
  | ok r =>
    cases hq : q.run us with
    | error e' =>
      rw [hp, hq] at h
      exact h.elim
    | ok r' =>
      rw [hp, hq] at h
      obtain ⟨hr, hs', hlen⟩ := h
      exact (hf r.1 r'.1 hr (by omega) r.2 r'.2 hs' (by omega)).after hlen

namespace Agree

theorem weaken {R' : α → β → Prop} {p : Scan τ α} {q : Scan τ β} (h : Agree S E b k R p q) (hl : l ≤ k)
    (hR : ∀ x y, R x y → R' x y) : Agree S E b l R' p q :=
  fun ts us hs hb => (h ts us hs hb).weaken hl hR

theorem fewer {p : Scan τ α} {q : Scan τ β} (h : Agree S E b k R p q) (hl : l ≤ b) : Agree S E l k R p q :=
  fun ts us hs hb => h ts us hs (Nat.le_trans hb hl)

theorem pure {x : α} {y : β} (h : R x y) : Agree S E b 0 R (Pure.pure x : Scan τ α) (Pure.pure y : Scan τ β) :=
  fun _ _ hs _ => ⟨h, hs, Nat.le_refl _⟩

theorem bind {p : Scan τ α} {q : Scan τ β} {f : α → Scan τ α'} {g : β → Scan τ β'} (h : Agree S E b k R p q)
    (hf : ∀ x y, R x y → k ≤ b → Agree S E (b - k) l Q (f x) (g y)) :
    Agree S E b (k + l) Q (p >>= f) (q >>= g) :=
  fun ts us hs hb => (h ts us hs hb).bind hb hf

theorem map {p : Scan τ α} {q : Scan τ β} {f : α → α'} {g : β → β'} (h : Agree S E b k R p q)
    (hf : ∀ x y, R x y → Q (f x) (g y)) : Agree S E b k Q (f <$> p) (g <$> q) := by
  rw [map_eq_pure_bind, map_eq_pure_bind]
  exact bind h fun x y hxy _ => pure (hf x y hxy)

/-- Rounds that take a token each end before their bound. -/
theorem rounds {more more' : Scan τ Bool} {step : α → Scan τ α} {step' : β → Scan τ β} {n : Nat}
    {x : α} {y : β} (hn : b < n)
    (hmore : Agree S E b 0 (· = ·) more more') (hstep : ∀ x y, R x y →
    Agree S E b 1 R (step x) (step' y)) (h : R x y) :
    Agree S E b 0 R (Scan.rounds more step n x) (Scan.rounds more' step' n y) := by
  induction n generalizing b x y with
  | zero => omega
  | succ n ih =>
    refine hmore.bind (l := 0) fun m m' hm _ => ?_
    subst hm
    cases m with
    | false => exact pure h
    | true =>
      refine (bind (l := 0) (hstep x y h) fun x y h hk => ?_).weaken (Nat.zero_le _) fun _ _ h => h
      exact ih (by omega) (hmore.fewer (by omega)) (fun x y h => (hstep x y h).fewer (by omega)) h

theorem loop {more more' : Scan τ Bool} {step : α → Scan τ α} {step' : β → Scan τ β} {x : α} {y : β}
    (hmore : Agree S E b 0 (· = ·) more more') (hstep : ∀ x y, R x y →
    Agree S E b 1 R (step x) (step' y)) (h : R x y)
    (hlen : ∀ ts us, S ts us → ts.length = us.length) :
    Agree S E b 0 R (Scan.loop more step x) (Scan.loop more' step' y) := by
  intro ts us hs hb
  unfold Scan.loop
  rw [run_bind_ok (run_get ts), run_bind_ok (run_get us), ← hlen ts us hs]
  exact rounds (Nat.lt_succ_self _) (hmore.fewer hb) (fun x y h => (hstep x y h).fewer hb) h ts us hs
    (Nat.le_refl _)

end Agree

end Scan

end Axton
