import Mathlib.Data.List.Basic
import Mathlib.Order.Defs.Unbundled

/-!
# Runs of a labelled transition system

A run is a chain of steps from a start state, with the labels it emitted in order. Safety results
are proved by the three rules here: a state invariant kept by every step holds in every state
reached, a preorder that every step stays inside relates any two states of a run, and a property of
the emitted labels is proved together with the state it depends on.
-/

namespace Axton

/-- `Trace step s os t`: a run from `s` to `t` that emitted `os`. -/
inductive Trace {σ ο : Type} (step : σ → ο → σ → Prop) (s : σ) : List ο → σ → Prop
  | nil : Trace step s [] s
  | snoc {os t o u} : Trace step s os t → step t o u → Trace step s (os ++ [o]) u

namespace Trace

variable {σ ο : Type} {step : σ → ο → σ → Prop} {s t u : σ} {os ps : List ο}

theorem append (h : Trace step s os t) (h' : Trace step t ps u) : Trace step s (os ++ ps) u := by
  induction h' with
  | nil => simpa using h
  | snoc _ hs ih => rw [← List.append_assoc]; exact ih.snoc hs

theorem single {o : ο} (h : step s o t) : Trace step s [o] t := by
  have empty : Trace step s [] s := .nil
  simpa using empty.snoc h

theorem of_nil (h : Trace step s [] t) : t = s := by
  generalize hos : ([] : List ο) = os at h
  cases h with
  | nil => rfl
  | snoc => simp at hos

theorem of_single {o : ο} (h : Trace step s [o] t) : step s o t := by
  generalize hos : [o] = os at h
  cases h with
  | nil => cases hos
  | @snoc ps u o' t hrun hstep =>
    obtain ⟨rfl, ho⟩ := List.append_inj' (show [] ++ [o] = ps ++ [o'] from hos) rfl
    cases ho
    rw [hrun.of_nil] at hstep
    exact hstep

/-- **Invariant rule.** -/
theorem inv (P : σ → Prop) (hstep : ∀ s o t, P s → step s o t → P t) (h : Trace step s os t)
    (hs : P s) : P t := by
  induction h with
  | nil => exact hs
  | snoc _ hst ih => exact hstep _ _ _ ih hst

/-- **Invariant rule with the labels emitted so far.** -/
theorem inv_labels (P : List ο → σ → Prop)
    (hstep : ∀ os s o t, P os s → step s o t → P (os ++ [o]) t)
    (h : Trace step s os t) (hs : P [] s) : P os t := by
  induction h with
  | nil => exact hs
  | snoc _ hst ih => exact hstep _ _ _ _ ih hst

/-- **Preorder rule**: under an invariant, any two states of a run are related. -/
theorem rel (P : σ → Prop) (R : σ → σ → Prop) [IsPreorder σ R]
    (hinv : ∀ s o t, P s → step s o t → P t) (hrel : ∀ s o t, P s → step s o t → R s t)
    (h : Trace step s os t) (hs : P s) : R s t := by
  have both : P t ∧ R s t := by
    induction h with
    | nil => exact ⟨hs, refl_of R s⟩
    | snoc _ hst ih => exact ⟨hinv _ _ _ ih.1 hst, trans_of R ih.2 (hrel _ _ _ ih.1 hst)⟩
  exact both.2

/-- A run all of whose steps satisfy a side condition, as a run of the restricted system. -/
theorem mono {step' : σ → ο → σ → Prop} (himp : ∀ s o t, step s o t → step' s o t)
    (h : Trace step s os t) : Trace step' s os t := by
  induction h with
  | nil => exact .nil
  | snoc _ hst ih => exact ih.snoc (himp _ _ _ hst)

end Trace

end Axton
