import Axton.Lib.Trace

/-!
# Programs over a host, and transactions

A program calls its host and continues with the answer; the host decides the answer and what the
call does to the state. `Runs` is the big-step meaning, with one rule per constructor.

A transaction runs a program on a private copy of the committed state, under a lock that it holds
from its first call to its end. Any number of calls may want to run; those without the lock have done
nothing yet. A transaction can abort before any of its host calls and after its last. The result is
`Transactions.serial`: whatever the interleaving, the committed state is reached by running the
committed calls one after another.
-/

namespace Axton

/-- A program that calls its host, and may fail. -/
inductive Prog (Op Ans α : Type) where
  | done (r : Except String α)
  | call (op : Op) (next : Ans → Prog Op Ans α)

namespace Prog

variable {Op Ans σ α β : Type}

def bind : Prog Op Ans α → (α → Prog Op Ans β) → Prog Op Ans β
  | .done (.ok a), f => f a
  | .done (.error e), _ => .done (.error e)
  | .call op next, f => .call op fun x => (next x).bind f

instance : Monad (Prog Op Ans) where
  pure a := .done (.ok a)
  bind := bind

/-- Refuse. -/
def fail (e : String) : Prog Op Ans α := .done (.error e)

/-- A fallible computation without host calls. -/
def lift (x : Except String α) : Prog Op Ans α := .done x

/-- A host call whose answer must have the expected form. -/
def expect (op : Op) (f : Ans → Option α) : Prog Op Ans α := .call op fun x => match f x with
  | some a => .done (.ok a)
  | none => .done (.error "host answer")

/-- Big-step runs: the answers the host gave and the state it left. -/
inductive Runs (host : Op → σ → Ans → σ → Prop) : Prog Op Ans α → σ → Except String α → σ → Prop
  | done {r : Except String α} {s : σ} : Runs host (.done r) s r s
  | call {op : Op} {next : Ans → Prog Op Ans α} {s t u : σ} {x : Ans} {r : Except String α} :
      host op s x t → Runs host (next x) t r u → Runs host (.call op next) s r u

variable {host : Op → σ → Ans → σ → Prop} {s t : σ} {p : Prog Op Ans α} {f : α → Prog Op Ans β} {a : α} {b : β}

/-- What one host does, a more permissive one may do. -/
theorem Runs.mono {host' : Op → σ → Ans → σ → Prop} {r : Except String α} (h : Runs host p s r t)
    (sub : ∀ op s x t, host op s x t → host' op s x t) : Runs host' p s r t := by
  induction h with
  | done => exact .done
  | call hx _ ih => exact .call (sub _ _ _ _ hx) ih

theorem runs_bind : Runs host (p >>= f) s (.ok b) t ↔
    ∃ a u, Runs host p s (.ok a) u ∧ Runs host (f a) u (.ok b) t := by
  show Runs host (p.bind f) s (.ok b) t ↔ _
  constructor
  · intro h
    induction p generalizing s with
    | done r =>
      cases r with
      | error e => cases h
      | ok a => exact ⟨a, s, .done, h⟩
    | call op next ih =>
      cases h with
      | call hx h =>
        obtain ⟨a, u, hp, hf⟩ := ih _ h
        exact ⟨a, u, .call hx hp, hf⟩
  · rintro ⟨a, u, hp, hf⟩
    generalize hr : (Except.ok a : Except String α) = r at hp
    induction hp with
    | done => subst hr; exact hf
    | call hx _ ih => exact .call hx (ih hf hr)

@[simp] theorem runs_pure {a' : α} : Runs host (pure a : Prog Op Ans α) s (.ok a') t ↔ a = a' ∧ s = t := by
  constructor
  · intro h
    cases h
    exact ⟨rfl, rfl⟩
  · rintro ⟨rfl, rfl⟩
    exact .done

@[simp] theorem runs_fail {e : String} : ¬ Runs host (fail e : Prog Op Ans α) s (.ok a) t := by
  intro h
  cases h

@[simp] theorem runs_lift {x : Except String α} : Runs host (lift x) s (.ok a) t ↔ x = .ok a ∧ s = t := by
  constructor
  · intro h
    cases h
    exact ⟨rfl, rfl⟩
  · rintro ⟨rfl, rfl⟩
    exact .done

@[simp] theorem runs_expect {op : Op} {f : Ans → Option α} :
    Runs host (expect op f) s (.ok a) t ↔ ∃ x, host op s x t ∧ f x = some a := by
  constructor
  · intro h
    cases h with
    | @call _ _ _ u _ x _ hx h =>
      refine ⟨x, ?_⟩
      cases hf : f x with
      | none =>
        simp only [hf] at h
        cases h
      | some a' =>
        simp only [hf] at h
        cases h
        exact ⟨hx, rfl⟩
  · rintro ⟨x, hx, hf⟩
    refine .call hx ?_
    simp only [hf]
    exact .done

/-- The calls that a program comes to make, whatever it is answered. -/
inductive Issues : Prog Op Ans α → Op → Prop
  | here {op : Op} {next : Ans → Prog Op Ans α} : Issues (.call op next) op
  | later {op op' : Op} {next : Ans → Prog Op Ans α} (x : Ans) : Issues (next x) op' → Issues (.call op next) op'

theorem issues_bind {op : Op} (h : Issues (p >>= f) op) : Issues p op ∨ ∃ a, Issues (f a) op := by
  induction p with
  | done r =>
    cases r with
    | error e => cases h
    | ok a => exact .inr ⟨a, h⟩
  | call op' next ih =>
    cases h with
    | here => exact .inl .here
    | later x h => exact (ih x h).imp (.later x) id

theorem issues_lift_bind {x : Except String α} {op : Op} (h : Issues (lift x >>= f) op) : ∃ a, x = .ok a ∧ Issues (f a) op := by
  cases x with
  | error e => cases h
  | ok a => exact ⟨a, rfl, h⟩

theorem issues_expect {op op' : Op} {g : Ans → Option α} (h : Issues (expect op g) op') : op' = op := by
  cases h with
  | here => rfl
  | later x h =>
    simp only at h
    split at h <;> cases h

@[simp] theorem issues_pure {op : Op} : ¬ Issues (pure a : Prog Op Ans α) op := fun h => by cases h

/-- Run a program against given answers. -/
def replay (host : Op → σ → Ans → Option σ) : Prog Op Ans α → List Ans → σ → Option (Except String α × σ)
  | .done r, _, s => some (r, s)
  | .call _ _, [], _ => none
  | .call op next, x :: xs, s => match host op s x with
    | some t => (next x).replay host xs t
    | none => none

theorem runs_of_replay {host : Op → σ → Ans → Option σ} {xs : List Ans} {r : Except String α}
    (h : p.replay host xs s = some (r, t)) : Runs (fun op s x t => host op s x = some t) p s r t := by
  induction p generalizing xs s with
  | done r' =>
    cases h
    exact .done
  | call op next ih =>
    cases xs with
    | nil => cases h
    | cons x xs =>
      cases hx : host op s x with
      | none => simp [replay, hx] at h
      | some u =>
        simp only [replay, hx] at h
        exact .call hx (ih x h)

/-! ### Deterministic hosts -/

/-- Run a program on a host that has one answer to each call: the result, unless something failed. -/
def eval (host : Op → σ → Option (Ans × σ)) : Prog Op Ans α → σ → Option (α × σ)
  | .done (.ok a), s => some (a, s)
  | .done (.error _), _ => none
  | .call op next, s => (host op s).bind fun e => (next e.1).eval host e.2

section
variable {host : Op → σ → Option (Ans × σ)}

@[simp] theorem eval_bind (p : Prog Op Ans α) (f : α → Prog Op Ans β) (s : σ) :
    (p >>= f).eval host s = (p.eval host s).bind fun e => (f e.1).eval host e.2 := by
  show (p.bind f).eval host s = _
  induction p generalizing s with
  | done r => cases r <;> rfl
  | call op next ih =>
    simp only [bind, eval]
    cases host op s with
    | none => rfl
    | some e => exact ih e.1 e.2

@[simp] theorem eval_pure (a : α) (s : σ) : (pure a : Prog Op Ans α).eval host s = some (a, s) := rfl

@[simp] theorem eval_fail (e : String) (s : σ) : (fail e : Prog Op Ans α).eval host s = none := rfl

@[simp] theorem eval_lift (x : Except String α) (s : σ) :
    (lift x : Prog Op Ans α).eval host s = x.toOption.map fun a => (a, s) := by
  cases x <;> rfl

@[simp] theorem eval_expect (op : Op) (f : Ans → Option α) (s : σ) :
    (expect op f).eval host s = (host op s).bind fun e => (f e.1).map fun a => (a, e.2) := by
  unfold expect
  simp only [eval]
  cases host op s with
  | none => rfl
  | some e =>
    simp only [Option.bind_some]
    cases f e.1 <;> rfl

/-- What a deterministic host computes is a run. -/
theorem runs_of_eval {p : Prog Op Ans α} {a : α} {s t : σ} (h : p.eval host s = some (a, t)) :
    Runs (fun op s x t => host op s = some (x, t)) p s (.ok a) t := by
  induction p generalizing s with
  | done r =>
    cases r with
    | error e => cases h
    | ok a' =>
      cases h
      exact .done
  | call op next ih =>
    simp only [eval, Option.bind_eq_some_iff] at h
    obtain ⟨⟨x, u⟩, hx, h⟩ := h
    exact .call hx (ih x h)

theorem eval_of_runs {p : Prog Op Ans α} {a : α} {s t : σ}
    (h : Runs (fun op s x t => host op s = some (x, t)) p s (.ok a) t) : p.eval host s = some (a, t) := by
  generalize hr : (Except.ok a : Except String α) = r at h
  induction h with
  | done =>
    subst hr
    rfl
  | call hx _ ih =>
    simp only [eval, hx, Option.bind_some]
    exact ih hr

end

end Prog

/-! ## Transactions -/

/-- The committed state, and the transaction that holds the lock with its private copy. -/
structure Transactions (Op Ans σ κ α : Type) where
  committed : σ
  holder : Option (κ × σ × Prog Op Ans α) := none

namespace Transactions

variable {Op Ans σ κ α : Type}

section
variable (host : Op → σ → Ans → σ → Prop) (body : κ → Prog Op Ans α)

/-- One step; a commit is labelled with its call and what the call returned. -/
inductive Step : Transactions Op Ans σ κ α → Option (κ × α) → Transactions Op Ans σ κ α → Prop
  | claim (s : σ) (c : κ) : Step ⟨s, none⟩ none ⟨s, some (c, s, body c)⟩
  | call {s w w' : σ} {c : κ} {op : Op} {next : Ans → Prog Op Ans α} {x : Ans} : host op w x w' →
      Step ⟨s, some (c, w, .call op next)⟩ none ⟨s, some (c, w', next x)⟩
  | commit (s w : σ) (c : κ) (a : α) : Step ⟨s, some (c, w, .done (.ok a))⟩ (some (c, a)) ⟨w, none⟩
  | abort (s w : σ) (c : κ) (p : Prog Op Ans α) : Step ⟨s, some (c, w, p)⟩ none ⟨s, none⟩

/-- One committed call, run alone. -/
def Serial (s : σ) (e : κ × α) (t : σ) : Prop := (body e.1).Runs host s (.ok e.2) t

end

variable {host : Op → σ → Ans → σ → Prop} {body : κ → Prog Op Ans α}

/-- The holder is in the middle of a run that began at the committed state. -/
def Resumes (host : Op → σ → Ans → σ → Prop) (body : κ → Prog Op Ans α) (u : Transactions Op Ans σ κ α) : Prop :=
  ∀ c w p, u.holder = some (c, w, p) → ∀ r t, p.Runs host w r t → (body c).Runs host u.committed r t

theorem resumes_free (s : σ) : Resumes host body ⟨s, none⟩ := fun _ _ _ h => by cases h

/-- **Transactions serialise.** -/
theorem serial {s u : Transactions Op Ans σ κ α} {os : List (Option (κ × α))} (hs : Resumes host body s)
    (h : Trace (Step host body) s os u) :
    Trace (Serial host body) s.committed (os.filterMap id) u.committed ∧ Resumes host body u := by
  refine Trace.inv_labels (fun os u => Trace (Serial host body) s.committed (os.filterMap id) u.committed ∧
    Resumes host body u) ?_ h ⟨.nil, hs⟩
  rintro os u o u' ⟨htrace, hholder⟩ hstep
  rw [List.filterMap_append]
  cases hstep with
  | claim s c =>
    refine ⟨by simpa using htrace, ?_⟩
    intro c' w p hh r t hr
    cases hh
    exact hr
  | call hx =>
    refine ⟨by simpa using htrace, ?_⟩
    intro c' w p hh r t hr
    cases hh
    exact hholder _ _ _ rfl r t (.call hx hr)
  | commit s w c a => exact ⟨htrace.snoc (hholder _ _ _ rfl _ _ .done), resumes_free w⟩
  | abort s w c p => exact ⟨by simpa using htrace, resumes_free s⟩

/-- A run without a commit leaves the committed state. -/
theorem committed_of_silent {s u : Transactions Op Ans σ κ α} {os : List (Option (κ × α))}
    (h : Trace (Step host body) s os u) (hsilent : ∀ o ∈ os, o = none) : u.committed = s.committed := by
  induction h with
  | nil => rfl
  | snoc _ hstep ih =>
    have hold := ih fun o ho => hsilent o (List.mem_append_left _ ho)
    have hlast := hsilent _ (List.mem_append_right _ (List.mem_singleton.2 rfl))
    cases hstep with
    | claim s c => exact hold
    | call hx => exact hold
    | commit s w c a => cases hlast
    | abort s w c p => exact hold

end Transactions

end Axton
