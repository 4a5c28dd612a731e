import Mathlib.Data.List.Forall2

/-!
# Tables updated row by row

`List.Forall₂ R old new` relates a table to a later version of it in which no row was added, dropped
or moved, each row having changed inside `R`.
-/

namespace Axton

variable {α β : Type} {R : α → α → Prop}

theorem forall₂_comp {α β γ : Type} {R : α → β → Prop} {S : β → γ → Prop} {T : α → γ → Prop}
    (hT : ∀ a b c, R a b → S b c → T a c) {l₁ : List α} {l₂ : List β} {l₃ : List γ}
    (h : List.Forall₂ R l₁ l₂) (h' : List.Forall₂ S l₂ l₃) : List.Forall₂ T l₁ l₃ := by
  induction h generalizing l₃ with
  | nil => cases h'; exact .nil
  | cons hr _ ih =>
    cases h' with
    | cons hs ht => exact .cons (hT _ _ _ hr hs) (ih ht)

/-- Every row of the later table comes from a row of the earlier one. -/
theorem forall₂_mem_right {Q : α → β → Prop} {l₁ : List α} {l₂ : List β} {b : β}
    (h : List.Forall₂ Q l₁ l₂) (hb : b ∈ l₂) : ∃ a ∈ l₁, Q a b := by
  induction h with
  | nil => simp at hb
  | cons hr _ ih =>
    rcases List.mem_cons.1 hb with rfl | hb
    · exact ⟨_, by simp, hr⟩
    · obtain ⟨a, ha, hr⟩ := ih hb
      exact ⟨a, by simp [ha], hr⟩

/-- Every row of the earlier table is still there. -/
theorem forall₂_mem_left {Q : α → β → Prop} {l₁ : List α} {l₂ : List β} {a : α}
    (h : List.Forall₂ Q l₁ l₂) (ha : a ∈ l₁) : ∃ b ∈ l₂, Q a b := by
  induction h with
  | nil => simp at ha
  | cons hr _ ih =>
    rcases List.mem_cons.1 ha with rfl | ha
    · exact ⟨_, by simp, hr⟩
    · obtain ⟨b, hb, hr⟩ := ih ha
      exact ⟨b, by simp [hb], hr⟩

/-- A table made row by row. -/
theorem forall₂_exists {Q : α → β → Prop} : ∀ {l : List α}, (∀ a ∈ l, ∃ b, Q a b) → ∃ l', List.Forall₂ Q l l'
  | [], _ => ⟨[], .nil⟩
  | a :: l, h => by
    obtain ⟨b, hb⟩ := h a (by simp)
    obtain ⟨l', hl'⟩ : ∃ l', List.Forall₂ Q l l' := forall₂_exists fun x hx => h x (by simp [hx])
    exact ⟨b :: l', .cons hb hl'⟩

/-- An update of every row by a function. -/
theorem forall₂_map {f : α → α} : ∀ {l : List α}, (∀ a ∈ l, R a (f a)) → List.Forall₂ R l (l.map f)
  | [], _ => .nil
  | _ :: _, h => .cons (h _ (by simp)) (forall₂_map fun a ha => h a (by simp [ha]))

/-- Two tables that answer the same rows alike are equal. -/
theorem forall₂_unique {Q Q' : α → β → Prop} {l : List α} {l₁ l₂ : List β}
    (h : ∀ a ∈ l, ∀ b b', Q a b → Q' a b' → b = b') (h₁ : List.Forall₂ Q l l₁) (h₂ : List.Forall₂ Q' l l₂) : l₁ = l₂ := by
  induction h₁ generalizing l₂ with
  | nil =>
    cases h₂
    rfl
  | cons hq _ ih =>
    cases h₂ with
    | cons hq' h₂ => rw [h _ (by simp) _ _ hq hq', ih (fun a ha => h a (by simp [ha])) h₂]

/-- Two tables that agree on a projection of their rows. -/
theorem forall₂_of_map_eq {f : α → β} : ∀ {l₁ l₂ : List α}, l₂.map f = l₁.map f →
    List.Forall₂ (fun a b => f b = f a) l₁ l₂
  | [], [], _ => .nil
  | _ :: _, _ :: _, h => by
    simp only [List.map_cons, List.cons.injEq] at h
    exact .cons h.1 (forall₂_of_map_eq h.2)

/-- A projection that tells the rows apart determines the table. -/
theorem eq_of_map_eq {f : α → β} : ∀ {l₁ l₂ : List α}, (∀ a ∈ l₁, ∀ b ∈ l₂, f a = f b → a = b) → l₁.map f = l₂.map f → l₁ = l₂
  | [], [], _, _ => rfl
  | a :: l₁, b :: l₂, hf, h => by
    simp only [List.map_cons, List.cons.injEq] at h
    rw [hf a (by simp) b (by simp) h.1, eq_of_map_eq (fun x hx y hy => hf x (by simp [hx]) y (by simp [hy])) h.2]

/-- A projection that no row changed. -/
theorem map_eq_of_forall₂ {γ : Type} {f : α → γ} {g : β → γ} : ∀ {l₁ : List α} {l₂ : List β},
    List.Forall₂ (fun a b => g b = f a) l₁ l₂ → l₂.map g = l₁.map f
  | [], [], .nil => rfl
  | _ :: _, _ :: _, .cons h t => by simp [h, map_eq_of_forall₂ t]

/-- The row found by a property no row changed has changed inside `R`. -/
theorem forall₂_find {p : α → Bool} (hp : ∀ a b, R a b → p b = p a) {l₁ l₂ : List α} {b : α}
    (h : List.Forall₂ R l₁ l₂) (hf : l₂.find? p = some b) : ∃ a, l₁.find? p = some a ∧ R a b := by
  induction h with
  | nil => simp at hf
  | @cons a b' l₁ l₂ hr _ ih =>
    by_cases hb : p b' = true
    · have hba : b' = b := by simpa [List.find?_cons, hb] using hf
      exact ⟨a, by simp [← hp _ _ hr, hb], hba ▸ hr⟩
    · have hf' : l₂.find? p = some b := by simpa [List.find?_cons, hb] using hf
      obtain ⟨x, hx, hxr⟩ := ih hf'
      exact ⟨x, by simpa [List.find?_cons, ← hp _ _ hr, hb] using hx, hxr⟩

/-- A selection by a property no row changed. -/
theorem forall₂_filter {p : α → Bool} (hp : ∀ a b, R a b → p b = p a) {l₁ l₂ : List α}
    (h : List.Forall₂ R l₁ l₂) : List.Forall₂ R (l₁.filter p) (l₂.filter p) := by
  induction h with
  | nil => exact .nil
  | @cons a b _ _ hr _ ih =>
    by_cases ha : p a = true
    · simp only [List.filter_cons, hp _ _ hr, ha, if_true]
      exact .cons hr ih
    · simp only [List.filter_cons, hp _ _ hr, ha]
      exact ih

/-! ## Rows in another order -/

/-- `ys` holds the rows of `xs`, each changed inside `Q`, in any order. -/
def Permuted (Q : α → β → Prop) (xs : List α) (ys : List β) : Prop := ∃ zs, List.Forall₂ Q xs zs ∧ zs.Perm ys

section
variable {Q : α → β → Prop} {xs : List α} {ys : List β} (h : Permuted Q xs ys)
include h

theorem Permuted.length_eq : ys.length = xs.length := by
  obtain ⟨zs, hzs, hperm⟩ := h
  rw [← hperm.length_eq, hzs.length_eq]

theorem Permuted.mem_right {y : β} (hy : y ∈ ys) : ∃ x ∈ xs, Q x y := by
  obtain ⟨zs, hzs, hperm⟩ := h
  exact forall₂_mem_right hzs (hperm.mem_iff.2 hy)

theorem Permuted.mem_left {x : α} (hx : x ∈ xs) : ∃ y ∈ ys, Q x y := by
  obtain ⟨zs, hzs, hperm⟩ := h
  obtain ⟨y, hy, hxy⟩ := forall₂_mem_left hzs hx
  exact ⟨y, hperm.mem_iff.1 hy, hxy⟩

theorem Permuted.map_perm {γ : Type} {f : α → γ} {g : β → γ} (hfg : ∀ x y, Q x y → g y = f x) : (xs.map f).Perm (ys.map g) := by
  obtain ⟨zs, hzs, hperm⟩ := h
  rw [← map_eq_of_forall₂ (hzs.imp hfg)]
  exact hperm.map g

/-- The only row with a property is found in either order. -/
theorem Permuted.find {p : α → Bool} {q : β → Bool} (hpq : ∀ x y, Q x y → q y = p x)
    (hone : ∀ x ∈ xs, ∀ x' ∈ xs, p x = true → p x' = true → x = x') :
    (xs.find? p = none ∧ ys.find? q = none) ∨ ∃ x y, xs.find? p = some x ∧ ys.find? q = some y ∧ Q x y := by
  cases hx : xs.find? p with
  | none =>
    refine .inl ⟨rfl, List.find?_eq_none.2 fun y hy => ?_⟩
    obtain ⟨x, hmem, hxy⟩ := h.mem_right hy
    rw [hpq x y hxy]
    exact List.find?_eq_none.1 hx x hmem
  | some x =>
    have hmem := List.mem_of_find?_eq_some hx
    have hpx := List.find?_some hx
    obtain ⟨y, hy, hxy⟩ := h.mem_left hmem
    have hfound : (ys.find? q).isSome := List.find?_isSome.2 ⟨y, hy, (hpq x y hxy).trans hpx⟩
    obtain ⟨y', hy'⟩ := Option.isSome_iff_exists.1 hfound
    obtain ⟨x', hmem', hxy'⟩ := h.mem_right (List.mem_of_find?_eq_some hy')
    have hpx' : p x' = true := (hpq x' y' hxy').symm.trans (List.find?_some hy')
    exact .inr ⟨x, y', rfl, hy', hone x' hmem' x hmem hpx' hpx ▸ hxy'⟩

end

/-! ## Tests over rows -/

end Axton
