import Axton.Core.Collect
import Mathlib.Data.String.Basic

/-!
# Objects as maps

`serde_json::Map` is a `BTreeMap`: it holds each key once, in key order (`Fields.Ordered`). The order in
which different entries are set does not matter, and setting several after each other is setting them at
once (`Fields.extend_extend`).
-/

namespace Axton

namespace Fields

/-- A map holds each key once, in key order. -/
def Ordered (fs : Fields) : Prop := fs.Pairwise fun a b => a.1 < b.1

theorem insert_insert (fs : Fields) (name : String) (v w : Json) :
    insert (insert fs name v) name w = insert fs name w := by
  induction fs with
  | nil => simp [insert]
  | cons e fs ih =>
    obtain ⟨k, x⟩ := e
    by_cases hk : k = name
    · simp [insert, hk]
    · by_cases hlt : name < k
      · simp [insert, hk, hlt]
      · simp [insert, hk, hlt, ih]

/-- Different entries can be set in either order. -/
theorem insert_comm (fs : Fields) {a b : String} (v w : Json) (h : a ≠ b) :
    insert (insert fs a v) b w = insert (insert fs b w) a v := by
  wlog hab : a < b generalizing a b v w
  · exact (this w v h.symm (lt_of_le_of_ne (not_lt.1 hab) h.symm)).symm
  have hba : ¬ b < a := lt_asymm hab
  induction fs with
  | nil => simp [insert, h, h.symm, hab, hba]
  | cons e fs ih =>
    obtain ⟨k, x⟩ := e
    rcases lt_trichotomy a k with hk | rfl | hk
    · have hak : k ≠ a := ne_of_gt hk
      rcases lt_trichotomy b k with hb | rfl | hb
      · simp [insert, hak, hk, hb, ne_of_gt hb, h, hba, hab, h.symm]
      · simp [insert, hak, hk, h, hba]
      · simp [insert, hak, hk, ne_of_lt hb, h, hba, lt_asymm hb]
    · simp [insert, h, hba]
    · have hkb : k < b := lt_trans hk hab
      simp [insert, ne_of_lt hk, lt_asymm hk, ne_of_lt hkb, lt_asymm hkb, ih]

theorem insert_ordered {fs : Fields} (h : fs.Ordered) (name : String) (v : Json) : (insert fs name v).Ordered := by
  induction fs with
  | nil => simp [insert, Ordered]
  | cons e fs ih =>
    obtain ⟨k, x⟩ := e
    obtain ⟨hfirst, hrest⟩ := List.pairwise_cons.1 h
    rcases lt_trichotomy name k with hk | rfl | hk
    · have hafter : ∀ e ∈ (k, x) :: fs, name < e.1 := by
        intro e he
        rcases List.mem_cons.1 he with rfl | he
        · exact hk
        · exact lt_trans hk (hfirst e he)
      have hset : insert ((k, x) :: fs) name v = (name, v) :: (k, x) :: fs := by simp [insert, ne_of_gt hk, hk]
      rw [hset]
      exact List.pairwise_cons.2 ⟨hafter, h⟩
    · have hset : insert ((name, x) :: fs) name v = (name, v) :: fs := by simp [insert]
      rw [hset]
      exact List.pairwise_cons.2 ⟨hfirst, hrest⟩
    · have hafter : ∀ e ∈ insert fs name v, k < e.1 := by
        intro e he
        rcases mem_insert he with rfl | he
        · exact hk
        · exact hfirst e he
      have hset : insert ((k, x) :: fs) name v = (k, x) :: insert fs name v := by
        simp [insert, ne_of_lt hk, lt_asymm hk]
      rw [hset]
      exact List.pairwise_cons.2 ⟨hafter, ih hrest⟩

theorem extend_ordered {fs : Fields} (h : fs.Ordered) (es : Fields) : (extend fs es).Ordered := by
  induction es generalizing fs with
  | nil => exact h
  | cons e es ih => exact ih (insert_ordered h e.1 e.2)

theorem Ordered.names_nodup {fs : Fields} (h : fs.Ordered) : (fs.map (·.1)).Nodup :=
  List.pairwise_map.2 (h.imp fun hlt => ne_of_lt hlt)

/-- A map reads every entry it holds. -/
theorem Ordered.get_of_mem {fs : Fields} (h : fs.Ordered) {e : String × Json} (he : e ∈ fs) : get fs e.1 = some e.2 := by
  obtain ⟨v, hv⟩ := Fields.get_of_mem he
  have hsame := List.inj_on_of_nodup_map h.names_nodup (mem_of_get hv) he rfl
  rw [hv, ← hsame]

/-- Extending by a map reads from that map first. -/
theorem Ordered.get_extend {es : Fields} (h : es.Ordered) (fs : Fields) (name : String) :
    get (extend fs es) name = (get es name).or (get fs name) := by
  rcases Fields.get_extend fs es name with ⟨v, hv, hget⟩ | ⟨hno, hget⟩
  · rw [hget, h.get_of_mem hv]
    rfl
  · have hnone : get es name = none := by
      cases hg : get es name with
      | none => rfl
      | some v => exact absurd rfl (hno _ (mem_of_get hg))
    rw [hget, hnone, Option.none_or]

/-- Two maps that read alike are equal. -/
theorem Ordered.ext_get {a b : Fields} (ha : a.Ordered) (hb : b.Ordered) (h : ∀ x, get a x = get b x) : a = b := by
  have hmem (e : String × Json) : e ∈ a ↔ e ∈ b := by
    constructor
    · intro he
      exact mem_of_get ((h e.1).symm.trans (ha.get_of_mem he))
    · intro he
      exact mem_of_get ((h e.1).trans (hb.get_of_mem he))
  have hperm : a.Perm b := (List.perm_ext_iff_of_nodup ha.names_nodup.of_map hb.names_nodup.of_map).2 hmem
  exact hperm.eq_of_pairwise (fun x y _ _ hxy hyx => absurd hyx (lt_asymm hxy)) ha hb

/-- An entry that no later one sets can be set last. -/
theorem extend_insert_of_notMem {es : Fields} {name : String} (h : ∀ e ∈ es, e.1 ≠ name) (fs : Fields) (v : Json) :
    extend (insert fs name v) es = insert (extend fs es) name v := by
  induction es generalizing fs with
  | nil => rfl
  | cons e es ih =>
    have hcomm := insert_comm fs v e.2 (h e (by simp)).symm
    have hrest := ih (fun x hx => h x (by simp [hx])) (insert fs e.1 e.2)
    show extend (insert (insert fs name v) e.1 e.2) es = _
    rw [hcomm]
    exact hrest

/-- Setting an entry of the map that is set is setting it afterwards. -/
theorem extend_insert {es : Fields} (h : es.Ordered) (fs : Fields) (name : String) (v : Json) :
    extend fs (insert es name v) = insert (extend fs es) name v := by
  induction es generalizing fs with
  | nil => rfl
  | cons e es ih =>
    obtain ⟨k, x⟩ := e
    obtain ⟨hfirst, hrest⟩ := List.pairwise_cons.1 h
    rcases lt_trichotomy name k with hk | rfl | hk
    · have hnone : ∀ e ∈ (k, x) :: es, e.1 ≠ name := by
        intro e he
        rcases List.mem_cons.1 he with rfl | he
        · exact ne_of_gt hk
        · exact ne_of_gt (lt_trans hk (hfirst e he))
      have hset : insert ((k, x) :: es) name v = (name, v) :: (k, x) :: es := by simp [insert, ne_of_gt hk, hk]
      rw [hset]
      exact extend_insert_of_notMem hnone fs v
    · have hnone : ∀ e ∈ es, e.1 ≠ name := fun e he => ne_of_gt (hfirst e he)
      have hset : insert ((name, x) :: es) name v = (name, v) :: es := by simp [insert]
      rw [hset]
      show extend (insert fs name v) es = insert (extend (insert fs name x) es) name v
      rw [extend_insert_of_notMem hnone, extend_insert_of_notMem hnone, insert_insert]
    · have hset : insert ((k, x) :: es) name v = (k, x) :: insert es name v := by
        simp [insert, ne_of_lt hk, lt_asymm hk]
      rw [hset]
      exact ih hrest (insert fs k x)

/-- **Patches compose**: patching a row with a patched patch is patching it twice. -/
theorem extend_extend {es : Fields} (h : es.Ordered) (fs patch : Fields) :
    extend fs (extend es patch) = extend (extend fs es) patch := by
  induction patch generalizing es with
  | nil => rfl
  | cons e patch ih =>
    have hnext := ih (insert_ordered h e.1 e.2)
    rw [extend_insert h] at hnext
    exact hnext

end Fields

end Axton
