import Axton.Lib.Table
import Mathlib.Algebra.BigOperators.Group.List.Basic
import Mathlib.Algebra.Order.BigOperators.Group.List
import Mathlib.Algebra.GroupWithZero.Nat
import Mathlib.Algebra.Order.Group.Nat

/-!
# Walking and summing a table

A table as an ordered map: its entries in key order, the removal of one key, and the sum of a measure over its
entries, which an update changes by the entry it replaces. `walk` rewrites a list in place, with a running state.
-/

namespace Axton

/-- Rewrite every element, with a running state. -/
def walk {σ α β : Type} (f : σ → α → σ × β) : σ → List α → σ × List β
  | s, [] => (s, [])
  | s, a :: rest => ((walk f (f s a).1 rest).1, (f s a).2 :: (walk f (f s a).1 rest).2)

/-- What every step of a walk keeps, the whole walk keeps. -/
theorem walk_map {σ α β γ : Type} {f : σ → α → σ × β} {g : α → γ} {h : β → γ} (step : ∀ s a, h (f s a).2 = g a) :
    ∀ (l : List α) (s : σ), (walk f s l).2.map h = l.map g
  | [], _ => rfl
  | a :: rest, s => by
    simp only [walk, List.map_cons, step s a, walk_map step rest]

section
variable {σ α β : Type} {f : σ → α → σ × β} {u : σ → Nat} {w : α → Nat} {v : β → Nat}

/-- A walk whose steps give up weight, and account for what they give up, accounts for the whole. -/
theorem walk_weight (step : ∀ s a, w a ≤ u s →
      u (f s a).1 + w a = u s + v (f s a).2 ∧ v (f s a).2 ≤ w a) :
    ∀ (l : List α) (s : σ), (l.map w).sum ≤ u s →
      u (walk f s l).1 + (l.map w).sum = u s + ((walk f s l).2.map v).sum ∧
        ((walk f s l).2.map v).sum ≤ (l.map w).sum
  | [], _, _ => ⟨rfl, le_rfl⟩
  | a :: rest, s, h => by
    simp only [walk, List.map_cons, List.sum_cons] at h ⊢
    obtain ⟨h1, h2⟩ := step s a (by omega)
    obtain ⟨h3, h4⟩ := walk_weight step rest (f s a).1 (by omega)
    omega

/-- A walk that keeps weight only within a budget ends within it, or keeps none. -/
theorem walk_within {g : σ → Prop} {budget : Nat} (mono : ∀ s a, u (f s a).1 ≤ u s)
    (back : ∀ s a, g (f s a).1 → g s)
    (step : ∀ s a, g (f s a).1 → u (f s a).1 ≤ budget ∨ v (f s a).2 = 0) :
    ∀ (l : List α) (s : σ), g (walk f s l).1 →
      (u (walk f s l).1 ≤ u s ∧ g s) ∧ (u (walk f s l).1 ≤ budget ∨ ((walk f s l).2.map v).sum = 0)
  | [], _, h => ⟨⟨le_rfl, h⟩, .inr rfl⟩
  | a :: rest, s, h => by
    simp only [walk, List.map_cons, List.sum_cons] at h ⊢
    obtain ⟨⟨hle, hg⟩, hrest⟩ := walk_within mono back step rest (f s a).1 h
    have hm := mono s a
    refine ⟨⟨by omega, back s a hg⟩, ?_⟩
    rcases step s a hg with h1 | h1
    · exact .inl (by omega)
    · rcases hrest with h2 | h2
      · exact .inl h2
      · exact .inr (by omega)

end

section
variable {σ α β : Type} {f h : σ → α → σ × β} {g : σ → Prop} {c : σ → Nat} {p : Nat → Prop}

/-- A walk that asks an oracle, beside the walk whose oracle always agrees: it ends well exactly when the oracle
agrees to every question the other walk asks, and then the two are one. -/
theorem walk_oracle (back : ∀ s a, g (f s a).1 → g s) (next : ∀ s a, g s → g (h s a).1 ∧ c s ≤ c (h s a).1)
    (step : ∀ s a, g s → ((g (f s a).1 ↔ ∀ n, c s ≤ n → n < c (h s a).1 → p n) ∧ (g (f s a).1 → f s a = h s a))) :
    ∀ (l : List α) (s : σ), (g (walk f s l).1 → g s) ∧ (g s →
      (g (walk h s l).1 ∧ c s ≤ c (walk h s l).1) ∧
        (g (walk f s l).1 ↔ ∀ n, c s ≤ n → n < c (walk h s l).1 → p n) ∧ (g (walk f s l).1 → walk f s l = walk h s l))
  | [], s => by
    refine ⟨id, fun hs => ⟨⟨hs, le_rfl⟩, ⟨fun _ n h1 h2 => ?_, fun _ => hs⟩, fun _ => rfl⟩⟩
    exact absurd h2 (not_lt.2 h1)
  | a :: rest, s => by
    simp only [walk]
    refine ⟨fun hw => back s a ((walk_oracle back next step rest _).1 hw), fun hs => ?_⟩
    obtain ⟨hn, hc⟩ := next s a hs
    obtain ⟨hiff, heq⟩ := step s a hs
    obtain ⟨⟨hg, hc'⟩, hiff', heq'⟩ := (walk_oracle back next step rest (h s a).1).2 hn
    have same : g (walk f (f s a).1 rest).1 → f s a = h s a := fun hw =>
      heq ((walk_oracle back next step rest _).1 hw)
    refine ⟨⟨hg, hc.trans hc'⟩, ⟨fun hw n h1 h2 => ?_, fun hp => ?_⟩, fun hw => ?_⟩
    · -- a question is asked by the first step or by the rest
      have he := same hw
      rw [he] at hw
      rcases Nat.lt_or_ge n (c (h s a).1) with h3 | h3
      · exact hiff.1 (he ▸ hn) n h1 h3
      · exact hiff'.1 hw n h3 h2
    · have h1 : g (f s a).1 := hiff.2 fun n h1 h2 => hp n h1 (lt_of_lt_of_le h2 hc')
      rw [heq h1]
      exact hiff'.2 fun n h2 h3 => hp n (hc.trans h2) h3
    · have he := same hw
      rw [he] at hw ⊢
      rw [heq' hw]

end

namespace Table

variable {K V : Type}

/-- The entries in key order. -/
def sorted [LinearOrder K] (t : Table K V) : Table K V := t.insertionSort fun a b => a.1 ≤ b.1

theorem sorted_perm [LinearOrder K] (t : Table K V) : t.sorted.Perm t := List.perm_insertionSort _ _

variable [DecidableEq K]

/-- Remove the entry of a key. -/
def remove (t : Table K V) (k : K) : Table K V := t.eraseP fun e => e.1 = k

theorem nodup_remove {t : Table K V} (hn : (t.map (·.1)).Nodup) (k : K) : ((t.remove k).map (·.1)).Nodup :=
  hn.sublist (List.eraseP_sublist.map _)

theorem get_remove {t : Table K V} (hn : (t.map (·.1)).Nodup) (k j : K) :
    (t.remove k).get j = if k = j then none else t.get j := by
  induction t with
  | nil => simp [remove, get]
  | cons e t ih =>
    obtain ⟨a, v⟩ := e
    rw [List.map_cons, List.nodup_cons] at hn
    by_cases hak : a = k
    · subst hak
      have hrest : remove ((a, v) :: t) a = t := by simp [remove]
      rw [hrest]
      by_cases haj : a = j
      · subst haj
        have hnone : get t a = none := by
          cases hg : get t a with
          | none => rfl
          | some w => exact absurd (get_isSome_iff.1 (by simp [hg])) hn.1
        simp [hnone]
      · simp [get, haj]
    · have hrest : remove ((a, v) :: t) k = (a, v) :: remove t k := by simp [remove, hak]
      rw [hrest]
      by_cases haj : a = j
      · subst haj
        simp [get, Ne.symm hak]
      · simp [get, haj, ih hn.2]

section
variable {M : Type} [AddCommMonoid M] (f : K × V → M)

/-- The sum of a measure over the entries. -/
def total (t : Table K V) : M := (t.map f).sum

theorem total_set {t : Table K V} {k : K} {v : V} (h : t.get k = some v) (w : V) :
    total f (t.set k w) + f (k, v) = total f t + f (k, w) := by
  induction t with
  | nil => cases h
  | cons e t ih =>
    obtain ⟨j, u⟩ := e
    by_cases hk : j = k
    · subst hk
      obtain rfl : u = v := by simpa [get] using h
      simp only [set, if_true, total, List.map_cons, List.sum_cons]
      rw [add_right_comm, add_comm (f _), add_right_comm]
    · have hg : get t k = some v := by simpa [get, hk] using h
      simp only [set, hk, if_false, total, List.map_cons, List.sum_cons] at ih ⊢
      rw [add_assoc, ih hg, add_assoc]

theorem total_set_new {t : Table K V} {k : K} (h : t.get k = none) (w : V) :
    total f (t.set k w) = total f t + f (k, w) := by
  rw [set_of_get_none w h]
  simp [total]

omit [DecidableEq K] in
@[simp] theorem total_nil : total f ([] : Table K V) = 0 := rfl

omit [DecidableEq K] in
@[simp] theorem total_cons (e : K × V) (t : Table K V) : total f (e :: t) = f e + total f t := by simp [total]

omit [DecidableEq K] in
theorem total_perm {t u : Table K V} (h : t.Perm u) : total f t = total f u := (h.map f).sum_eq

theorem total_remove {t : Table K V} {k : K} {v : V} (h : t.get k = some v) :
    total f t = f (k, v) + total f (t.remove k) := by
  induction t with
  | nil => cases h
  | cons e t ih =>
    obtain ⟨j, u⟩ := e
    by_cases hk : j = k
    · subst hk
      obtain rfl : u = v := by simpa [get] using h
      simp [total, remove]
    · have hg : get t k = some v := by simpa [get, hk] using h
      simp only [total, remove, List.map_cons, List.sum_cons] at ih ⊢
      rw [List.eraseP_cons_of_neg (by simpa using hk), List.map_cons, List.sum_cons, ih hg]
      exact add_left_comm _ _ _

end

section
variable (f : K × V → Nat)

omit [DecidableEq K] in
theorem total_sublist {t u : Table K V} (h : t.Sublist u) : total f t ≤ total f u :=
  (h.map f).sum_le_sum fun _ _ => Nat.zero_le _

omit [DecidableEq K] in
theorem total_map_le {V' : Type} {g : K × V → K × V'} {f' : K × V' → Nat} (t : Table K V) (h : ∀ e, f' (g e) ≤ f e) :
    total f' (t.map g) ≤ total f t := by
  induction t with
  | nil => exact le_rfl
  | cons e t ih =>
    rw [List.map_cons, total_cons, total_cons]
    exact Nat.add_le_add (h e) ih

/-- A row set in a table adds at most its own measure. -/
theorem total_set_le (t : Table K V) (k : K) (w : V) : total f (t.set k w) ≤ total f t + f (k, w) := by
  cases h : t.get k with
  | none => rw [total_set_new f h]
  | some v =>
    have := total_set f h w
    omega

/-- A row put in the place of another, or of nothing, adds at most the difference. -/
theorem total_set_add {t : Table K V} {k : K} {v w : V} {x : Nat} (h : f (k, w) ≤ f (k, (t.get k).getD v) + x)
    (hv : f (k, v) = 0) : total f (t.set k w) ≤ total f t + x := by
  cases hg : t.get k with
  | none =>
    rw [hg, Option.getD_none, hv] at h
    rw [total_set_new f hg]
    omega
  | some u =>
    rw [hg, Option.getD_some] at h
    have := total_set f hg w
    omega

theorem length_set (t : Table K V) (k : K) (w : V) : (t.set k w).length = t.length + if (t.get k).isNone then 1 else 0 := by
  have h1 := total_set_new (t := t) (k := k) (fun _ => 1) (w := w)
  have h2 := fun v => total_set (t := t) (k := k) (v := v) (fun _ => 1) (w := w)
  have ht : ∀ t : Table K V, total (fun _ => 1) t = t.length := fun t => by simp [total]
  simp only [ht] at h1 h2
  cases hg : t.get k with
  | none => simpa using h1 hg
  | some v => simpa using h2 v hg

theorem total_setAll_le (rows : Table K V) : ∀ t : Table K V, total f (t.setAll rows) ≤ total f t + total f rows := by
  induction rows with
  | nil => exact fun _ => le_rfl
  | cons r rows ih =>
    intro t
    have h1 : total f (t.setAll (r :: rows)) ≤ total f (t.set r.1 r.2) + total f rows := ih _
    have h2 : total f (t.set r.1 r.2) ≤ total f t + f r := total_set_le f t r.1 r.2
    rw [total_cons]
    omega

end

end Table

end Axton
