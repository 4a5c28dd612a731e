import Mathlib.Data.List.Sort

/-!
# Keyed tables

A SQL table with a primary key, or a `BTreeMap`, as an association list: reads find the first row
of a key, a write replaces the row in place or appends it, a delete drops the key.
-/

namespace Axton

/-- Rows by primary key, in insertion order. -/
abbrev Table (K V : Type) := List (K × V)

namespace Table

variable {K V : Type} [DecidableEq K]

def get : Table K V → K → Option V
  | [], _ => none
  | (a, v) :: t, k => if a = k then some v else get t k

/-- `INSERT … ON CONFLICT(key) DO UPDATE`. -/
def set : Table K V → K → V → Table K V
  | [], k, v => [(k, v)]
  | (a, w) :: t, k, v => if a = k then (k, v) :: t else (a, w) :: set t k v

/-- `DELETE … WHERE key=?`. -/
def erase (t : Table K V) (k : K) : Table K V := t.filter fun r => !decide (r.1 = k)

/-- Write a row, or delete it when there is none. -/
def put (t : Table K V) (k : K) : Option V → Table K V
  | some v => t.set k v
  | none => t.erase k

theorem get_set (t : Table K V) (k j : K) (v : V) :
    (t.set k v).get j = if k = j then some v else t.get j := by
  induction t with
  | nil => simp [set, get]
  | cons r t ih =>
    obtain ⟨a, w⟩ := r
    by_cases hak : a = k
    · subst hak; by_cases haj : a = j <;> simp [set, get, haj]
    · by_cases haj : a = j
      · subst haj; simp [set, get, hak, Ne.symm hak]
      · simp [set, get, hak, haj, ih]

theorem get_erase (t : Table K V) (k j : K) :
    (t.erase k).get j = if k = j then none else t.get j := by
  induction t with
  | nil => simp [erase, get]
  | cons r t ih =>
    obtain ⟨a, w⟩ := r
    unfold erase at ih ⊢
    by_cases hak : a = k
    · subst hak; by_cases haj : a = j <;> simp_all [get]
    · by_cases haj : a = j
      · subst haj; simp [get, hak, Ne.symm hak]
      · simpa [get, hak, haj] using ih

@[simp] theorem get_set_self (t : Table K V) (k : K) (v : V) : (t.set k v).get k = some v := by
  simp [get_set]

theorem get_set_ne (t : Table K V) {k j : K} (v : V) (h : k ≠ j) : (t.set k v).get j = t.get j := by
  simp [get_set, h]

theorem mem_of_get {t : Table K V} {k : K} {v : V} (h : t.get k = some v) : (k, v) ∈ t := by
  induction t with
  | nil => simp [get] at h
  | cons r t ih =>
    obtain ⟨a, w⟩ := r
    by_cases hak : a = k
    · simp [get, hak] at h; simp [hak, h]
    · simp [get, hak] at h; exact List.mem_cons_of_mem _ (ih h)

theorem get_of_mem {t : Table K V} {k : K} {v : V} (hn : (t.map (·.1)).Nodup) (h : (k, v) ∈ t) : t.get k = some v := by
  induction t with
  | nil => cases h
  | cons r t ih =>
    obtain ⟨a, w⟩ := r
    rw [List.map_cons, List.nodup_cons] at hn
    rcases List.mem_cons.1 h with e | h
    · cases e
      simp [get]
    · have hak : a ≠ k := by
        rintro rfl
        exact hn.1 (List.mem_map.2 ⟨_, h, rfl⟩)
      simp [get, hak, ih hn.2 h]

/-! ### Writing several rows -/

/-- Write rows in order. -/
def setAll (t : Table K V) (rows : Table K V) : Table K V := rows.foldl (fun t r => t.set r.1 r.2) t

theorem mem_set {t : Table K V} {k : K} {v : V} {r : K × V} (h : r ∈ t.set k v) : r = (k, v) ∨ r ∈ t := by
  induction t with
  | nil => simpa [set] using h
  | cons x t ih =>
    obtain ⟨a, w⟩ := x
    by_cases hak : a = k
    · rw [set, if_pos hak, List.mem_cons] at h
      rcases h with h | h
      · exact .inl h
      · exact .inr (List.mem_cons_of_mem _ h)
    · rw [set, if_neg hak, List.mem_cons] at h
      rcases h with rfl | h
      · exact .inr List.mem_cons_self
      · rcases ih h with h | h
        · exact .inl h
        · exact .inr (List.mem_cons_of_mem _ h)

theorem nodup_set {t : Table K V} (hn : (t.map (·.1)).Nodup) (k : K) (v : V) : ((t.set k v).map (·.1)).Nodup := by
  induction t with
  | nil => simp [set]
  | cons x t ih =>
    obtain ⟨a, w⟩ := x
    rw [List.map_cons, List.nodup_cons] at hn
    by_cases hak : a = k
    · subst hak
      simpa [set] using hn
    · rw [set, if_neg hak, List.map_cons, List.nodup_cons]
      refine ⟨fun hmem => ?_, ih hn.2⟩
      obtain ⟨r, hr, hra⟩ := List.mem_map.1 hmem
      rcases mem_set hr with rfl | hr
      · exact hak hra.symm
      · exact hn.1 (List.mem_map.2 ⟨r, hr, hra⟩)

theorem mem_setAll {t rows : Table K V} {r : K × V} (h : r ∈ t.setAll rows) : r ∈ rows ∨ r ∈ t := by
  induction rows generalizing t with
  | nil => exact .inr h
  | cons x rows ih =>
    rcases ih h with h | h
    · exact .inl (List.mem_cons_of_mem _ h)
    · rcases mem_set h with rfl | h
      · exact .inl List.mem_cons_self
      · exact .inr h

theorem nodup_setAll {t : Table K V} (hn : (t.map (·.1)).Nodup) (rows : Table K V) :
    ((t.setAll rows).map (·.1)).Nodup := by
  induction rows generalizing t with
  | nil => exact hn
  | cons x rows ih => exact ih (nodup_set hn x.1 x.2)

/-- A read finds the row as it was, or one of those written. -/
theorem get_setAll (t rows : Table K V) (k : K) :
    (t.setAll rows).get k = t.get k ∨ ∃ v, (k, v) ∈ rows ∧ (t.setAll rows).get k = some v := by
  induction rows generalizing t with
  | nil => exact .inl rfl
  | cons x rows ih =>
    rcases ih (t.set x.1 x.2) with h | ⟨v, hv, h⟩
    · by_cases hk : x.1 = k
      · refine .inr ⟨x.2, by simp [← hk], ?_⟩
        show ((t.set x.1 x.2).setAll rows).get k = some x.2
        rw [h, get_set, if_pos hk]
      · refine .inl ?_
        show ((t.set x.1 x.2).setAll rows).get k = t.get k
        rw [h, get_set, if_neg hk]
    · exact .inr ⟨v, List.mem_cons_of_mem _ hv, h⟩

theorem set_of_get_none {t : Table K V} {k : K} (v : V) (h : t.get k = none) : t.set k v = t ++ [(k, v)] := by
  induction t with
  | nil => rfl
  | cons r t ih =>
    obtain ⟨a, w⟩ := r
    by_cases hak : a = k
    · simp [get, hak] at h
    · simp only [get, hak, if_false] at h
      simp [set, hak, ih h]

theorem get_append_singleton (t : Table K V) (k j : K) (v : V) :
    (Table.get (t ++ [(k, v)]) j) = (t.get j).orElse fun _ => if k = j then some v else none := by
  induction t with
  | nil => simp [get]
  | cons r t ih =>
    obtain ⟨a, w⟩ := r
    by_cases haj : a = j <;> simp [get, haj, ih]

theorem get_isSome_iff {t : Table K V} {k : K} : (t.get k).isSome ↔ k ∈ t.map (·.1) := by
  induction t with
  | nil => simp [get]
  | cons r t ih =>
    obtain ⟨a, w⟩ := r
    by_cases hak : a = k
    · simp [get, hak]
    · simp [get, hak, ih, Ne.symm hak]

theorem isSome_setAll (t rows : Table K V) (k : K) :
    ((t.setAll rows).get k).isSome ↔ (t.get k).isSome ∨ k ∈ rows.map (·.1) := by
  induction rows generalizing t with
  | nil => simp [setAll]
  | cons x rows ih =>
    have step : (t.setAll (x :: rows)).get k = ((t.set x.1 x.2).setAll rows).get k := rfl
    rw [step, ih, get_set]
    by_cases hk : x.1 = k
    · simp [hk]
    · simp [hk, Ne.symm hk]

/-! ### Tables of tables -/

/-- The row of a table that is itself a row. -/
def get₂ {L : Type} [DecidableEq L] (t : Table K (Table L V)) (k : K) (l : L) : Option V := (t.get k).bind (·.get l)

theorem get₂_set {L : Type} [DecidableEq L] (t : Table K (Table L V)) (k i : K) (l j : L) (v : V) :
    (t.set k (((t.get k).getD []).set l v)).get₂ i j = if k = i ∧ l = j then some v else t.get₂ i j := by
  unfold get₂
  rw [get_set]
  by_cases hk : k = i
  · subst hk
    simp only [if_true, true_and, Option.bind_some, get_set]
    cases t.get k with
    | none => simp [get]
    | some rows => simp
  · simp [hk]

/-- Reads do not depend on where a sort puts a row, so long as rows of one key keep their order. -/
theorem get_insertionSort_of {r : K × V → K × V → Prop} [DecidableRel r] (hr : ∀ a b : K × V, a.1 = b.1 → r a b)
    (t : Table K V) (k : K) : Table.get (t.insertionSort r) k = t.get k := by
  have insert : ∀ (x : K × V) (l : Table K V), Table.get (l.orderedInsert r x) k = Table.get (x :: l) k := by
    intro x l
    induction l with
    | nil => rfl
    | cons y l ih =>
      obtain ⟨a, v⟩ := x
      obtain ⟨b, w⟩ := y
      by_cases hab : r (a, v) (b, w)
      · simp [List.orderedInsert, hab]
      · have hne : a ≠ b := fun e => hab (hr _ _ e)
        simp only [List.orderedInsert, hab, if_false, get] at ih ⊢
        by_cases hb : b = k
        · simp [hb, show a ≠ k from hb ▸ hne]
        · simp [hb, ih]
  induction t with
  | nil => rfl
  | cons x t ih =>
    obtain ⟨a, v⟩ := x
    rw [List.insertionSort_cons, insert]
    simp only [get, ih]

theorem get_insertionSort [LinearOrder K] (t : Table K V) (k : K) :
    Table.get (t.insertionSort fun a b => a.1 ≤ b.1) k = t.get k :=
  get_insertionSort_of (fun _ _ h => le_of_eq h) t k

end Table

/-! ## Ordered reads -/

section
variable {α : Type} {r : α → α → Prop} [DecidableRel r] [IsTrans α r] [Std.Total r]

end

end Axton
