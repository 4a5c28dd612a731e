import Axton.Lib.Check
import Axton.Lib.Table

/-!
# The writing parts of a statement

A SQL statement may write several tables at once: each part is given the rows it is to write, reads its table as it was
when the statement began, and leaves a new table and the rows of its `RETURNING`. The parts meet only through those rows.

An `ON CONFLICT` clause decides for each candidate: without a row of its key it is inserted, else the row is updated, or
left alone where a `WHERE` excludes it. Meeting a row of its own a second time fails the statement. A plain `INSERT` does
not look: its key is a constraint of the table, checked with the others when the statement ends.
-/

namespace Axton

/-- What a part of a statement leaves, and what it returns. -/
structure Written (K V : Type) where
  table : Table K V
  returning : List (K × V)

namespace Written

variable {K V : Type}

/-- `INSERT … SELECT … RETURNING`. -/
def insert (t : Table K V) (rows : List (K × V)) : Written K V := ⟨t ++ rows, rows⟩

@[simp] theorem insert_table (t : Table K V) (rows : List (K × V)) : (insert t rows).table = t ++ rows := rfl

@[simp] theorem insert_returning (t : Table K V) (rows : List (K × V)) : (insert t rows).returning = rows := rfl

variable [DecidableEq K]

/-- One candidate of an `ON CONFLICT`. -/
def meet (update : V → V → Option V) (w : Written K V) (c : K × V) : Except String (Written K V) :=
  if c.1 ∈ w.returning.map (·.1) then
    .error "ON CONFLICT DO UPDATE command cannot affect row a second time"
  else
    match w.table.get c.1 with
    | none => .ok ⟨w.table.set c.1 c.2, w.returning ++ [c]⟩
    | some v =>
      match update v c.2 with
      | some v' => .ok ⟨w.table.set c.1 v', w.returning ++ [(c.1, v')]⟩
      | none => .ok w

/-- `INSERT … SELECT … ON CONFLICT(key) DO UPDATE SET … WHERE … RETURNING`. -/
def upsert (update : V → V → Option V) (t : Table K V) (candidates : List (K × V)) : Except String (Written K V) :=
  candidates.foldlM (meet update) ⟨t, []⟩

@[simp] theorem upsert_nil (update : V → V → Option V) (t : Table K V) : upsert update t [] = .ok ⟨t, []⟩ := rfl

/-- One candidate is inserted, updates its row, or meets one that is excluded. -/
theorem upsert_singleton (update : V → V → Option V) (t : Table K V) (c : K × V) :
    upsert update t [c] = .ok (match t.get c.1 with
      | none => ⟨t.set c.1 c.2, [c]⟩
      | some v =>
        match update v c.2 with
        | some v' => ⟨t.set c.1 v', [(c.1, v')]⟩
        | none => ⟨t, []⟩) := by
  rw [upsert, List.foldlM_cons, meet, if_neg (by simp)]
  cases t.get c.1 with
  | none => rfl
  | some v =>
    cases hu : update v c.2 with
    | none => simp [hu, pure, Except.pure, bind, Except.bind]
    | some v' => simp [hu, pure, Except.pure, bind, Except.bind]

/-! ## Overwriting

`DO UPDATE SET` from the candidate alone. -/

/-- The existing row is replaced by the candidate. -/
def excluded (_ v : V) : Option V := some v

theorem meet_excluded {w w' : Written K V} {c : K × V} (h : meet excluded w c = .ok w') :
    c.1 ∉ w.returning.map (·.1) ∧ w' = ⟨w.table.set c.1 c.2, w.returning ++ [c]⟩ := by
  rw [meet] at h
  split at h
  · cases h
  · rename_i hnew
    refine ⟨hnew, ?_⟩
    cases hget : w.table.get c.1 with
    | none => simpa [hget] using h.symm
    | some v => simpa [hget, excluded] using h.symm

/-- An overwriting part returns its candidates, each of a key of its own, and leaves the table with all of them written. -/
theorem upsert_excluded {t : Table K V} {cs : List (K × V)} {w : Written K V} (h : upsert excluded t cs = .ok w) :
    w.returning = cs ∧ w.table = t.setAll cs ∧ (cs.map (·.1)).Nodup := by
  have run : ∀ (cs : List (K × V)) (v w : Written K V), cs.foldlM (meet excluded) v = .ok w →
      (v.returning.map (·.1)).Nodup →
      w.returning = v.returning ++ cs ∧ w.table = v.table.setAll cs ∧ (w.returning.map (·.1)).Nodup := by
    intro cs
    induction cs with
    | nil =>
      intro v w hw hnodup
      simp only [List.foldlM_nil, pure_ok] at hw
      subst hw
      exact ⟨(List.append_nil _).symm, rfl, hnodup⟩
    | cons c cs ih =>
      intro v w hw hnodup
      rw [List.foldlM_cons, bind_ok] at hw
      obtain ⟨u, hu, hw⟩ := hw
      obtain ⟨hnew, rfl⟩ := meet_excluded hu
      have hnodup' : ((v.returning ++ [c]).map (·.1)).Nodup := by
        rw [List.map_append, List.nodup_append]
        refine ⟨hnodup, by simp, ?_⟩
        intro a ha b hb hab
        simp only [List.map_cons, List.map_nil, List.mem_singleton] at hb
        exact hnew (hb ▸ hab ▸ ha)
      obtain ⟨hret, htable, hall⟩ := ih _ w hw hnodup'
      exact ⟨by rw [hret]; simp, htable, hall⟩
  obtain ⟨hret, htable, hnodup⟩ := run cs ⟨t, []⟩ w h List.nodup_nil
  rw [List.nil_append] at hret
  exact ⟨hret, htable, hret ▸ hnodup⟩

end Written

namespace Table

variable {K V : Type} [DecidableEq K]

/-- The rows of a key are the one a read finds. -/
theorem filter_key {t : Table K V} (hn : (t.map (·.1)).Nodup) (k : K) :
    (t.filter fun r => r.1 = k).map (·.2) = (t.get k).toList := by
  induction t with
  | nil => rfl
  | cons r t ih =>
    obtain ⟨a, v⟩ := r
    obtain ⟨ha, hn⟩ := List.nodup_cons.1 hn
    by_cases hak : a = k
    · subst hak
      have hrest : t.filter (fun r => r.1 = a) = [] :=
        List.filter_eq_nil_iff.2 fun r hr => by simpa using fun e => ha (List.mem_map.2 ⟨r, hr, e⟩)
      simp [get, hrest]
    · simpa [get, hak] using ih hn

theorem mem_keys_set {t : Table K V} {k j : K} (v : V) (h : j ∈ t.map (·.1)) : j ∈ (t.set k v).map (·.1) := by
  rw [← get_isSome_iff] at h ⊢
  rw [get_set]
  split
  · rfl
  · exact h

/-- A row that was not written stands as it stood. -/
theorem get_setAll_of_notMem {t rows : Table K V} {k : K} (h : k ∉ rows.map (·.1)) : (t.setAll rows).get k = t.get k := by
  rcases get_setAll t rows k with hget | ⟨v, hv, -⟩
  · exact hget
  · exact absurd (List.mem_map.2 ⟨_, hv, rfl⟩) h

/-- A row written once is read back. -/
theorem get_setAll_of_mem {t rows : Table K V} {k : K} {v : V} (hn : (rows.map (·.1)).Nodup) (h : (k, v) ∈ rows) :
    (t.setAll rows).get k = some v := by
  induction rows generalizing t with
  | nil => cases h
  | cons r rows ih =>
    obtain ⟨hr, hn⟩ := List.nodup_cons.1 hn
    rcases List.mem_cons.1 h with rfl | h
    · show ((t.set k v).setAll rows).get k = some v
      rw [get_setAll_of_notMem hr, get_set_self]
    · exact ih hn h

end Table

end Axton
