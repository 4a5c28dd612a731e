import Axton.Protocol.Delivery
import Mathlib.Data.List.Dedup
import Mathlib.Logic.Relation

/-!
# What planning keeps

`plan_units` cuts the candidates of a range into components. Whatever the components are, no
candidate is lost, none is added, and the units come in the order of their least position. This is
all a page needs of the planner; the boundaries are checked again when the header is frozen.

* `planUnits_planned` — the candidates are exactly the changes of the units, in order;
* `freeze_holds` — what a frozen header says about the units it was frozen with.
-/

namespace Axton

variable {P : Platform}

/-! ## The union-find keeps one number per candidate -/

theorem Components.length_add (unique : List String) (c : Components) (e : Nat × AuthorityChange) :
    (c.add P unique e).ids.length = c.ids.length := by
  unfold Components.add
  cases hunique : unique.contains e.2.key.model <;> cases hcursor : c.cursors.get e.2.cursor <;>
    cases hmodel : c.models.get e.2.key.model <;> simp only [hunique, hcursor, hmodel, if_true, if_false, Bool.false_eq_true, length_union]

theorem Components.length_join (c : Components) (d : RecordKey × RecordKey) : (c.join P d).ids.length = c.ids.length := by
  unfold Components.join
  split
  · exact length_union _ _ _
  · rfl

/-- A loop that keeps a measure of its state keeps it to the end. -/
theorem foldl_keeps {α β γ : Type} (f : β → α → β) (measure : β → γ) (h : ∀ b a, measure (f b a) = measure b)
    (l : List α) (b : β) : measure (l.foldl f b) = measure b := by
  induction l generalizing b with
  | nil => rfl
  | cons a l ih => rw [List.foldl_cons, ih, h]

theorem length_components (unique : List String) (dependencies : List (RecordKey × RecordKey))
    (candidates : List AuthorityChange) : (components P unique dependencies candidates).length = candidates.length := by
  unfold components
  rw [foldl_keeps _ List.length, foldl_keeps _ fun c : Components => c.ids.length,
    foldl_keeps _ fun c : Components => c.ids.length, List.length_range]
  · exact fun c e => Components.length_add unique c e
  · exact fun c d => Components.length_join c d
  · intro ids i
    rw [List.length_set, length_root]

/-! ## Constraint components -/

/-- What puts two changes into one unit at once: one position, one model with a unique set, or a listed dependency. -/
def Linked (P : Platform) (unique : List String) (dependencies : List (RecordKey × RecordKey)) (a b : AuthorityChange) :
    Prop :=
  a.cursor = b.cursor ∨ (a.key.model = b.key.model ∧ a.key.model ∈ unique) ∨
    ∃ d ∈ dependencies, d.1.encoded P = a.key.encoded P ∧ d.2.encoded P = b.key.encoded P

/-- Two candidates in one constraint component: a chain of links through candidates joins them. -/
def Constrained (P : Platform) (unique : List String) (dependencies : List (RecordKey × RecordKey))
    (candidates : List AuthorityChange) : AuthorityChange → AuthorityChange → Prop :=
  Relation.EqvGen fun a b => a ∈ candidates ∧ b ∈ candidates ∧ Linked P unique dependencies a b

/-- The components of the candidates by their numbers. -/
def SameComponent (P : Platform) (unique : List String) (dependencies : List (RecordKey × RecordKey))
    (candidates : List AuthorityChange) (i j : Nat) : Prop :=
  i = j ∨ ∃ a b, candidates[i]? = some a ∧ candidates[j]? = some b ∧ Constrained P unique dependencies candidates a b

section
variable {unique : List String} {dependencies : List (RecordKey × RecordKey)} {candidates : List AuthorityChange}

/-- A component does not leave the candidates. -/
theorem constrained_mem {a b : AuthorityChange} (h : Constrained P unique dependencies candidates a b) :
    a ∈ candidates ↔ b ∈ candidates := by
  induction h with
  | rel a b h => exact ⟨fun _ => h.2.1, fun _ => h.1⟩
  | refl a => exact Iff.rfl
  | symm a b _ ih => exact ih.symm
  | trans a b c _ _ ih₁ ih₂ => exact ih₁.trans ih₂

theorem sameComponent_equivalence : Equivalence (SameComponent P unique dependencies candidates) where
  refl _ := .inl rfl
  symm := by
    rintro i j (rfl | ⟨a, b, ha, hb, hab⟩)
    · exact .inl rfl
    · exact .inr ⟨b, a, hb, ha, hab.symm⟩
  trans := by
    rintro i j k (rfl | ⟨a, b, ha, hb, hab⟩) hjk
    · exact hjk
    · rcases hjk with rfl | ⟨b', c, hb', hc, hbc⟩
      · exact .inr ⟨a, b, ha, hb, hab⟩
      · rw [hb] at hb'
        cases hb'
        exact .inr ⟨a, c, ha, hc, hab.trans _ _ _ hbc⟩

theorem sameComponent_of_linked {i j : Nat} {a b : AuthorityChange} (ha : candidates[i]? = some a)
    (hb : candidates[j]? = some b) (h : Linked P unique dependencies a b) :
    SameComponent P unique dependencies candidates i j :=
  .inr ⟨a, b, ha, hb, .rel _ _ ⟨List.mem_of_getElem? ha, List.mem_of_getElem? hb, h⟩⟩

/-- While the candidates are walked and the dependencies read: the classes are inside the components, the seen ones stand
in the class of the last of their position and of their unique model, the ends of a read dependency share a class, and
the maps hold numbers of seen candidates. -/
structure Components.Joined (P : Platform) (unique : List String) (dependencies : List (RecordKey × RecordKey))
    (candidates : List AuthorityChange) (seen : List (Nat × AuthorityChange)) (read : List (RecordKey × RecordKey))
    (c : Components) (rep : Nat → Nat) : Prop where
  length : c.ids.length = candidates.length
  classes : Classes c.ids rep
  sound : ∀ i j, rep i = rep j → SameComponent P unique dependencies candidates i j
  candidate : ∀ e ∈ seen, candidates[e.1]? = some e.2
  cursors : ∀ e ∈ seen, ∃ p, c.cursors.get e.2.cursor = some p ∧ rep e.1 = rep p
  models : ∀ e ∈ seen, e.2.key.model ∈ unique → ∃ p, c.models.get e.2.key.model = some p ∧ rep e.1 = rep p
  identities : ∀ e ∈ seen, c.identities.get (e.2.key.syncText P) = some e.1
  read : ∀ d ∈ read, ∀ a b, c.identities.get (d.1.syncText P) = some a → c.identities.get (d.2.syncText P) = some b →
    rep a = rep b
  ofCursor : ∀ k p, c.cursors.get k = some p → ∃ e ∈ seen, e.1 = p ∧ e.2.cursor = k
  ofModel : ∀ k p, c.models.get k = some p → k ∈ unique ∧ ∃ e ∈ seen, e.1 = p ∧ e.2.key.model = k
  ofIdentity : ∀ k p, c.identities.get k = some p → ∃ e ∈ seen, e.1 = p ∧ e.2.key.syncText P = k

/-- Joining one candidate with an earlier one of its component, if there is one. -/
theorem union_some {E : Nat → Nat → Prop} (hE : Equivalence E) {ids : List Nat} {rep : Nat → Nat} {n index : Nat}
    (hlen : ids.length = n) (h : Classes ids rep) (hsound : ∀ i j, rep i = rep j → E i j) (hi : index < n)
    (previous : Option Nat) (hp : ∀ p, previous = some p → p < n ∧ E p index) :
    ∃ rep', (match previous with | some p => union ids p index | none => ids).length = n ∧
      Classes (match previous with | some p => union ids p index | none => ids) rep' ∧ Coarser rep rep' ∧
      (∀ i j, rep' i = rep' j → E i j) ∧ ∀ p, previous = some p → rep' p = rep' index := by
  cases previous with
  | none => exact ⟨rep, hlen, h, .refl rep, hsound, nofun⟩
  | some p =>
    obtain ⟨hlt, hE'⟩ := hp p rfl
    obtain ⟨rep', hc, merged⟩ := union_classes h (hlen ▸ hlt) (hlen ▸ hi)
    refine ⟨rep', by rw [length_union, hlen], hc, merged.coarser, merged.sound hE hsound hE', fun q hq => ?_⟩
    cases hq
    exact merged.joined

/-- A map after one more entry. -/
theorem get_set_cases {K : Type} [DecidableEq K] {t : Table K Nat} {k k' : K} {v p : Nat}
    (h : (t.set k v).get k' = some p) : (k' = k ∧ p = v) ∨ t.get k' = some p := by
  by_cases hk : k' = k
  · subst hk
    rw [Table.get_set_self] at h
    cases h
    exact .inl ⟨rfl, rfl⟩
  · rw [Table.get_set_ne _ _ fun h => hk h.symm] at h
    exact .inr h

variable {seen : List (Nat × AuthorityChange)} {c : Components} {rep : Nat → Nat}

/-- The entry of a seen candidate in a map of last candidates, after one more of them. -/
theorem last_entry {K : Type} [DecidableEq K] {t : Table K Nat} {k k' : K} {rep₀ rep₁ rep' : Nat → Nat} {i index : Nat}
    (h₀ : Coarser rep₀ rep₁) (h₁ : Coarser rep₁ rep') (hjoin : ∀ p, t.get k = some p → rep₁ p = rep₁ index)
    (h : ∃ p, t.get k' = some p ∧ rep₀ i = rep₀ p) : ∃ p, (t.set k index).get k' = some p ∧ rep' i = rep' p := by
  obtain ⟨p, hp, hrep⟩ := h
  by_cases hk : k' = k
  · -- the class of this key now ends at the new candidate
    refine ⟨index, by rw [hk]; exact Table.get_set_self _ _ _, h₁ _ _ ?_⟩
    rw [hk] at hp
    rw [h₀ _ _ hrep]
    exact hjoin p hp
  · exact ⟨p, by rw [Table.get_set_ne _ _ fun h => hk h.symm]; exact hp, h₁ _ _ (h₀ _ _ hrep)⟩

theorem Components.Joined.add {e : Nat × AuthorityChange} (h : c.Joined P unique dependencies candidates seen [] rep)
    (he : candidates[e.1]? = some e.2) (hkeys : ∀ e' ∈ seen, e'.2.key.syncText P ≠ e.2.key.syncText P) :
    ∃ rep', (c.add P unique e).Joined P unique dependencies candidates (seen ++ [e]) [] rep' := by
  have hi : e.1 < candidates.length := (List.getElem?_eq_some_iff.1 he).1
  obtain ⟨rep₁, hlen₁, hc₁, hcoarse₁, hsound₁, hjoin₁⟩ := union_some sameComponent_equivalence h.length h.classes h.sound hi
    (c.cursors.get e.2.cursor) fun p hp => by
      obtain ⟨e', he', rfl, hcur⟩ := h.ofCursor _ _ hp
      have hcand := h.candidate e' he'
      exact ⟨(List.getElem?_eq_some_iff.1 hcand).1, sameComponent_of_linked hcand he (.inl hcur)⟩
  have second : ∃ rep', (c.add P unique e).ids.length = candidates.length ∧ Classes (c.add P unique e).ids rep' ∧
      Coarser rep₁ rep' ∧ (∀ i j, rep' i = rep' j → SameComponent P unique dependencies candidates i j) ∧
      (e.2.key.model ∈ unique → ∀ p, c.models.get e.2.key.model = some p → rep' p = rep' e.1) := by
    unfold Components.add
    simp only
    split
    · rename_i hunique
      obtain ⟨rep₂, hlen₂, hc₂, hcoarse₂, hsound₂, hjoin₂⟩ := union_some sameComponent_equivalence hlen₁ hc₁ hsound₁ hi
        (c.models.get e.2.key.model) fun p hp => by
          obtain ⟨hin, e', he', rfl, hmodel⟩ := h.ofModel _ _ hp
          have hcand := h.candidate e' he'
          exact ⟨(List.getElem?_eq_some_iff.1 hcand).1,
            sameComponent_of_linked hcand he (.inr (.inl ⟨hmodel, by rw [hmodel]; exact hin⟩))⟩
      exact ⟨rep₂, hlen₂, hc₂, hcoarse₂, hsound₂, fun _ => hjoin₂⟩
    · rename_i hunique
      exact ⟨rep₁, hlen₁, hc₁, .refl rep₁, hsound₁, fun hin => absurd (by simpa using hin) hunique⟩
  obtain ⟨rep', hlen, hclasses, hcoarse, hsound, hjoin⟩ := second
  have hmodels : (c.add P unique e).models =
      if unique.contains e.2.key.model then c.models.set e.2.key.model e.1 else c.models := rfl
  refine ⟨rep', hlen, hclasses, hsound, fun e' he' => ?_, fun e' he' => ?_, fun e' he' hin => ?_, fun e' he' => ?_, nofun,
    fun k p hp => ?_, fun k p hp => ?_, fun k p hp => ?_⟩
  · rcases List.mem_append.1 he' with hseen | hnew
    · exact h.candidate e' hseen
    · rw [List.mem_singleton.1 hnew]
      exact he
  · show ∃ p, (c.cursors.set e.2.cursor e.1).get e'.2.cursor = some p ∧ rep' e'.1 = rep' p
    rcases List.mem_append.1 he' with hseen | hnew
    · exact last_entry hcoarse₁ hcoarse hjoin₁ (h.cursors e' hseen)
    · rw [List.mem_singleton.1 hnew]
      exact ⟨e.1, Table.get_set_self _ _ _, rfl⟩
  · rw [hmodels]
    rcases List.mem_append.1 he' with hseen | hnew
    · obtain ⟨p, hp, hrep⟩ := h.models e' hseen hin
      split
      · rename_i hunique
        refine last_entry (hcoarse₁.trans hcoarse) (.refl rep') (fun q hq => ?_) ⟨p, hp, hrep⟩
        exact hjoin (by simpa using hunique) q hq
      · exact ⟨p, hp, hcoarse _ _ (hcoarse₁ _ _ hrep)⟩
    · rw [List.mem_singleton.1 hnew] at hin ⊢
      rw [if_pos (by simpa using hin)]
      exact ⟨e.1, Table.get_set_self _ _ _, rfl⟩
  · show (c.identities.set (e.2.key.syncText P) e.1).get (e'.2.key.syncText P) = some e'.1
    rcases List.mem_append.1 he' with hseen | hnew
    · rw [Table.get_set_ne _ _ fun h => hkeys e' hseen h.symm]
      exact h.identities e' hseen
    · rw [List.mem_singleton.1 hnew]
      exact Table.get_set_self _ _ _
  · rcases get_set_cases (show (c.cursors.set e.2.cursor e.1).get k = some p from hp) with ⟨rfl, rfl⟩ | hp
    · exact ⟨e, by simp, rfl, rfl⟩
    · obtain ⟨e', he', h'⟩ := h.ofCursor k p hp
      exact ⟨e', List.mem_append_left _ he', h'⟩
  · rw [hmodels] at hp
    have hold : c.models.get k = some p → k ∈ unique ∧ ∃ e' ∈ seen ++ [e], e'.1 = p ∧ e'.2.key.model = k := fun hp => by
      obtain ⟨hin, e', he', h'⟩ := h.ofModel k p hp
      exact ⟨hin, e', List.mem_append_left _ he', h'⟩
    split at hp
    · rename_i hunique
      rcases get_set_cases hp with ⟨rfl, rfl⟩ | hp
      · exact ⟨by simpa using hunique, e, by simp, rfl, rfl⟩
      · exact hold hp
    · exact hold hp
  · rcases get_set_cases (show (c.identities.set (e.2.key.syncText P) e.1).get k = some p from hp) with ⟨rfl, rfl⟩ | hp
    · exact ⟨e, by simp, rfl, rfl⟩
    · obtain ⟨e', he', h'⟩ := h.ofIdentity k p hp
      exact ⟨e', List.mem_append_left _ he', h'⟩

theorem Components.Joined.join {read : List (RecordKey × RecordKey)}
    (h : c.Joined P unique dependencies candidates seen read rep) {d : RecordKey × RecordKey} (hd : d ∈ dependencies) :
    ∃ rep', (c.join P d).Joined P unique dependencies candidates seen (read ++ [d]) rep' := by
  unfold Components.join
  split
  · rename_i a b ha hb
    obtain ⟨ea, hea, rfl, hka⟩ := h.ofIdentity _ _ ha
    obtain ⟨eb, heb, rfl, hkb⟩ := h.ofIdentity _ _ hb
    have hca := h.candidate ea hea
    have hcb := h.candidate eb heb
    obtain ⟨rep', hc, merged⟩ := union_classes h.classes (h.length ▸ (List.getElem?_eq_some_iff.1 hca).1)
      (h.length ▸ (List.getElem?_eq_some_iff.1 hcb).1)
    refine ⟨rep', by rw [length_union, h.length], hc, merged.sound sameComponent_equivalence h.sound
      (sameComponent_of_linked hca hcb (.inr (.inr ⟨d, hd, RecordKey.syncText_inj.1 hka.symm, RecordKey.syncText_inj.1 hkb.symm⟩))), h.candidate, fun e he => ?_,
      fun e he hin => ?_, h.identities, fun d' hd' a b ha' hb' => ?_, h.ofCursor, h.ofModel, h.ofIdentity⟩
    · obtain ⟨p, hp, hrep⟩ := h.cursors e he
      exact ⟨p, hp, merged.coarser _ _ hrep⟩
    · obtain ⟨p, hp, hrep⟩ := h.models e he hin
      exact ⟨p, hp, merged.coarser _ _ hrep⟩
    · rcases List.mem_append.1 hd' with hd' | hd'
      · exact merged.coarser _ _ (h.read d' hd' a b ha' hb')
      · rw [List.mem_singleton.1 hd'] at ha' hb'
        simp only at ha' hb'
        rw [ha] at ha'
        rw [hb] at hb'
        cases ha'
        cases hb'
        exact merged.joined
  · rename_i hnone
    refine ⟨rep, { h with read := fun d' hd' a b ha' hb' => ?_ }⟩
    rcases List.mem_append.1 hd' with hd' | hd'
    · exact h.read d' hd' a b ha' hb'
    · rw [List.mem_singleton.1 hd'] at ha' hb'
      exact absurd hb' (hnone a b ha')

theorem Components.Joined.addAll : ∀ (l : List (Nat × AuthorityChange)) {seen : List (Nat × AuthorityChange)}
    {c : Components} {rep : Nat → Nat}, c.Joined P unique dependencies candidates seen [] rep →
    (∀ e ∈ l, candidates[e.1]? = some e.2) → ((seen ++ l).map (·.2.key.syncText P)).Nodup →
    ∃ rep', (l.foldl (Components.add P unique) c).Joined P unique dependencies candidates (seen ++ l) [] rep'
  | [], _, _, rep, h, _, _ => ⟨rep, by simpa using h⟩
  | e :: l, seen, c, rep, h, hl, hkeys => by
    have hfresh : ∀ e' ∈ seen, e'.2.key.syncText P ≠ e.2.key.syncText P := by
      rw [List.map_append, List.nodup_append] at hkeys
      intro e' he'
      exact hkeys.2.2 _ (List.mem_map_of_mem he') _ (by simp)
    obtain ⟨rep₁, h₁⟩ := h.add (hl e List.mem_cons_self) hfresh
    obtain ⟨rep', h'⟩ := Components.Joined.addAll l h₁ (fun e' he' => hl e' (List.mem_cons_of_mem _ he')) (by
      rw [List.append_assoc, List.singleton_append]
      exact hkeys)
    rw [List.append_assoc, List.singleton_append] at h'
    exact ⟨rep', h'⟩

theorem Components.Joined.joinAll : ∀ (l : List (RecordKey × RecordKey)) {read : List (RecordKey × RecordKey)}
    {c : Components} {rep : Nat → Nat}, c.Joined P unique dependencies candidates seen read rep →
    (∀ d ∈ l, d ∈ dependencies) →
    ∃ rep', (l.foldl (Components.join P) c).Joined P unique dependencies candidates seen (read ++ l) rep'
  | [], _, _, rep, h, _ => ⟨rep, by simpa using h⟩
  | d :: l, _, _, _, h, hl => by
    obtain ⟨_, h₁⟩ := h.join (hl d List.mem_cons_self)
    obtain ⟨rep', h'⟩ := Components.Joined.joinAll l h₁ fun d' hd' => hl d' (List.mem_cons_of_mem _ hd')
    rw [List.append_assoc, List.singleton_append] at h'
    exact ⟨rep', h'⟩

/-- Linked candidates end in one class. -/
theorem Components.Joined.linked (h : c.Joined P unique dependencies candidates seen dependencies rep)
    (hseen : ∀ (i : Nat) (a : AuthorityChange), candidates[i]? = some a → (i, a) ∈ seen) {i j : Nat} {a b : AuthorityChange}
    (ha : candidates[i]? = some a) (hb : candidates[j]? = some b) (hlink : Linked P unique dependencies a b) :
    rep i = rep j := by
  have hia := hseen i a ha
  have hjb := hseen j b hb
  rcases hlink with hcur | ⟨hmodel, hin⟩ | ⟨d, hd, hda, hdb⟩
  · obtain ⟨p, hp, hrep⟩ := h.cursors _ hia
    obtain ⟨q, hq, hrep'⟩ := h.cursors _ hjb
    simp only at hp hq hrep hrep'
    rw [hcur, hq] at hp
    cases hp
    exact hrep.trans hrep'.symm
  · obtain ⟨p, hp, hrep⟩ := h.models _ hia hin
    obtain ⟨q, hq, hrep'⟩ := h.models _ hjb (show b.key.model ∈ unique from hmodel ▸ hin)
    simp only at hp hq hrep hrep'
    rw [hmodel, hq] at hp
    cases hp
    exact hrep.trans hrep'.symm
  · have hi := h.identities _ hia
    have hj := h.identities _ hjb
    simp only at hi hj
    rw [← RecordKey.syncText_inj.2 hda] at hi
    rw [← RecordKey.syncText_inj.2 hdb] at hj
    exact h.read d hd i j hi hj

/-- **The union-find computes the constraint components**: two candidates have one number exactly when a chain of links
joins them. -/
theorem components_iff (hkeys : (candidates.map (·.key.encoded P)).Nodup) {i j : Nat} {a b : AuthorityChange}
    (ha : candidates[i]? = some a) (hb : candidates[j]? = some b) :
    (components P unique dependencies candidates)[i]? = (components P unique dependencies candidates)[j]? ↔
      Constrained P unique dependencies candidates a b := by
  obtain ⟨hi, -⟩ := List.getElem?_eq_some_iff.1 ha
  obtain ⟨hj, -⟩ := List.getElem?_eq_some_iff.1 hb
  have start : Components.Joined P unique dependencies candidates [] [] { ids := List.range candidates.length } fun i => i :=
    ⟨List.length_range, classes_range _, fun i j h => .inl h, nofun, nofun, nofun, nofun, nofun, nofun, nofun, nofun⟩
  have hmem : ∀ (k : Nat) (c : AuthorityChange), candidates[k]? = some c →
      (k, c) ∈ candidates.zipIdx.map fun e => (e.2, e.1) := by
    intro k c hc
    exact List.mem_map.2 ⟨(c, k), List.mk_mem_zipIdx_iff_getElem?.2 hc, rfl⟩
  have hcand : ∀ e ∈ candidates.zipIdx.map (fun e => (e.2, e.1)), candidates[e.1]? = some e.2 := by
    intro e he
    obtain ⟨x, hx, rfl⟩ := List.mem_map.1 he
    exact List.mk_mem_zipIdx_iff_getElem?.1 hx
  have htexts : (([] ++ candidates.zipIdx.map fun e : AuthorityChange × Nat => (e.2, e.1)).map
      fun e : Nat × AuthorityChange => e.2.key.syncText P) = candidates.map (·.key.syncText P) := by
    rw [List.nil_append, List.map_map]
    conv_rhs => rw [← List.zipIdx_map_fst 0 candidates, List.map_map]
    rfl
  obtain ⟨_, added⟩ := Components.Joined.addAll _ start hcand (by rw [htexts]; exact (RecordKey.syncText_nodup AuthorityChange.key).2 hkeys)
  obtain ⟨rep, joined⟩ := Components.Joined.joinAll dependencies added fun d hd => hd
  rw [List.nil_append, List.nil_append] at joined
  obtain ⟨hlen, hflat⟩ := flatten_spec joined.classes
  rw [joined.length] at hlen hflat
  have hcomp : ∀ k < candidates.length, (components P unique dependencies candidates)[k]? = some (rep k) := by
    intro k hk
    have hk' := hflat k hk
    have hk'' : k < (flatten candidates.length (dependencies.foldl (Components.join P)
        ((candidates.zipIdx.map fun e => (e.2, e.1)).foldl (Components.add P unique)
          { ids := List.range candidates.length })).ids).length := by rw [hlen]; exact hk
    show (flatten candidates.length _)[k]? = some (rep k)
    rw [← hk']
    simp [Forest.parent, List.getD_eq_getElem?_getD, hk'']
  rw [hcomp i hi, hcomp j hj, Option.some.injEq]
  constructor
  · intro hrep
    rcases joined.sound i j hrep with rfl | ⟨a', b', ha', hb', hab⟩
    · rw [ha] at hb
      cases hb
      exact .refl _
    · rw [ha] at ha'
      rw [hb] at hb'
      cases ha'
      cases hb'
      exact hab
  · -- the classes are closed under links, so they hold the whole chain
    have closed : ∀ {a b : AuthorityChange}, Constrained P unique dependencies candidates a b → ∀ {i j : Nat},
        candidates[i]? = some a → candidates[j]? = some b → rep i = rep j := by
      intro a b hab
      induction hab with
      | rel a b hlink =>
        intro i j ha hb
        exact joined.linked hmem ha hb hlink.2.2
      | refl a =>
        intro i j ha hb
        have hij : i = j := by
          refine (List.getElem?_inj (by simpa using (List.getElem?_eq_some_iff.1 ha).1) hkeys).1 ?_
          rw [List.getElem?_map, List.getElem?_map, ha, hb]
        rw [hij]
      | symm a b _ ih =>
        intro i j ha hb
        exact (ih hb ha).symm
      | trans a b c hab _ ih₁ ih₂ =>
        intro i j ha hc
        obtain ⟨k, hk⟩ := List.mem_iff_getElem?.1 ((constrained_mem hab).1 (List.mem_of_getElem? ha))
        exact (ih₁ ha hk).trans (ih₂ hk hc)
    intro hab
    exact closed hab ha hb

end

/-! ## Groups -/

theorem members_sublist (candidates : List AuthorityChange) (comps : List Nat) (r : Nat) :
    (members candidates comps r).Sublist candidates := by
  have hzip : ((candidates.zip comps).map (·.1)).Sublist candidates := by
    induction candidates generalizing comps with
    | nil => simp
    | cons c cs ih =>
      cases comps with
      | nil => simp
      | cons n ns => simpa using ih ns
  exact (List.filter_sublist.map _).trans hzip

theorem mem_members {candidates : List AuthorityChange} {comps : List Nat} {i : Nat} (hi : i < candidates.length)
    (hi' : i < comps.length) : candidates[i] ∈ members candidates comps comps[i] := by
  refine List.mem_map.2 ⟨(candidates[i], comps[i]), List.mem_filter.2 ⟨?_, by simp⟩, rfl⟩
  exact List.mem_iff_getElem.2 ⟨i, by rw [List.length_zip]; omega, by simp⟩

/-- Every candidate is in the group of its component. -/
theorem mem_groups {candidates : List AuthorityChange} {comps : List Nat} (hlen : comps.length = candidates.length)
    {c : AuthorityChange} (hc : c ∈ candidates) : ∃ g ∈ groups candidates comps, c ∈ g := by
  obtain ⟨i, hi, rfl⟩ := List.getElem_of_mem hc
  have hi' : i < comps.length := by omega
  refine ⟨members candidates comps comps[i], ?_, mem_members hi hi'⟩
  refine List.mem_map_of_mem ((List.mem_insertionSort _).2 ?_)
  exact List.mem_dedup.2 (List.getElem_mem hi')

/-- No group is empty. -/
theorem groups_ne_nil {candidates : List AuthorityChange} {comps : List Nat} (hlen : comps.length = candidates.length) :
    [] ∉ groups candidates comps := by
  intro h
  obtain ⟨r, hr, hnil⟩ := List.mem_map.1 h
  rw [List.mem_insertionSort, List.mem_dedup] at hr
  obtain ⟨i, hi, rfl⟩ := List.getElem_of_mem hr
  have hmem := mem_members (hlen ▸ hi) hi
  rw [hnil] at hmem
  cases hmem

theorem mem_of_groups {candidates : List AuthorityChange} {comps : List Nat} {g : List AuthorityChange}
    (hg : g ∈ groups candidates comps) : g.Sublist candidates := by
  obtain ⟨r, -, rfl⟩ := List.mem_map.1 hg
  exact members_sublist _ _ _

theorem mem_members_iff {candidates : List AuthorityChange} {comps : List Nat} {r : Nat} {c : AuthorityChange} :
    c ∈ members candidates comps r ↔ ∃ i : Nat, candidates[i]? = some c ∧ comps[i]? = some r := by
  unfold members
  rw [List.mem_map]
  constructor
  · rintro ⟨e, he, rfl⟩
    obtain ⟨he, hr⟩ := List.mem_filter.1 he
    rw [decide_eq_true_eq] at hr
    obtain ⟨i, hi⟩ := List.mem_iff_getElem?.1 he
    rw [List.getElem?_zip_eq_some] at hi
    exact ⟨i, hi.1, hr ▸ hi.2⟩
  · rintro ⟨i, hc, hr⟩
    refine ⟨(c, r), List.mem_filter.2 ⟨List.mem_iff_getElem?.2 ⟨i, ?_⟩, by simp⟩, rfl⟩
    exact List.getElem?_zip_eq_some.2 ⟨hc, hr⟩

/-- Groups are of different components. -/
theorem groups_pairwise (candidates : List AuthorityChange) (comps : List Nat)
    {R : AuthorityChange → AuthorityChange → Prop}
    (h : ∀ {i j : Nat} {a b : AuthorityChange}, candidates[i]? = some a → candidates[j]? = some b →
      comps[i]? ≠ comps[j]? → R a b) :
    (groups candidates comps).Pairwise fun g g' => ∀ a ∈ g, ∀ b ∈ g', R a b := by
  unfold groups
  rw [List.pairwise_map]
  have hnodup : (comps.dedup.insertionSort (· ≤ ·)).Nodup :=
    (List.perm_insertionSort _ _).nodup_iff.2 (List.nodup_dedup _)
  refine hnodup.imp fun hne a ha b hb => ?_
  obtain ⟨i, hi, hri⟩ := mem_members_iff.1 ha
  obtain ⟨j, hj, hrj⟩ := mem_members_iff.1 hb
  refine h hi hj fun hsame => ?_
  rw [hri, hrj] at hsame
  exact hne (Option.some.inj hsame)

/-! ## The order of candidates and of groups -/

instance : Std.Total (candidateLe P) where
  total a b := by
    unfold candidateLe
    rcases lt_trichotomy a.cursor b.cursor with h | h | h
    · exact .inl (.inl h)
    · rcases lt_trichotomy (a.key.syncText P) (b.key.syncText P) with hk | hk | hk
      · exact .inl (.inr ⟨h, not_lt_of_gt hk⟩)
      · exact .inl (.inr ⟨h, by rw [hk]; exact lt_irrefl _⟩)
      · exact .inr (.inr ⟨h.symm, not_lt_of_gt hk⟩)
    · exact .inr (.inl h)

instance : IsTrans AuthorityChange (candidateLe P) where
  trans a b c := by
    unfold candidateLe
    rintro (h | ⟨h, hk⟩) (h' | ⟨h', hk'⟩)
    · exact .inl (by omega)
    · exact .inl (by omega)
    · exact .inl (by omega)
    · exact .inr ⟨by omega, not_lt.2 (le_trans (not_lt.1 hk) (not_lt.1 hk'))⟩

instance : Std.Total (groupLe P) where
  total a b := by
    cases a with
    | nil => exact .inl (by simp [groupLe])
    | cons x xs =>
      cases b with
      | nil => exact .inr (by simp [groupLe])
      | cons y ys => exact Std.Total.total (r := candidateLe P) x y

instance : IsTrans (List AuthorityChange) (groupLe P) where
  trans a b c hab hbc := by
    cases a with
    | nil => simp [groupLe]
    | cons x xs =>
      cases b with
      | nil => simp [groupLe] at hab
      | cons y ys =>
        cases c with
        | nil => simp [groupLe] at hbc
        | cons z zs =>
          have hxy : candidateLe P x y := hab
          have hyz : candidateLe P y z := hbc
          exact trans_of (candidateLe P) hxy hyz

theorem candidateLe.cursor_le {a b : AuthorityChange} (h : candidateLe P a b) : a.cursor ≤ b.cursor := by
  rcases h with h | ⟨h, -⟩ <;> omega

/-- The first candidate of an ordered group has its least position. -/
theorem firstCursor_le {g : List AuthorityChange} (hg : g.Pairwise (candidateLe P)) {c : AuthorityChange} (hc : c ∈ g) :
    firstCursor g ≤ c.cursor := by
  cases hg with
  | nil => cases hc
  | @cons a l hall _ =>
    show a.cursor ≤ c.cursor
    rcases List.mem_cons.1 hc with rfl | hc
    · exact le_refl _
    · exact (hall c hc).cursor_le

theorem minimumCursor_eq {g : List AuthorityChange} (hg : g.Pairwise (candidateLe P)) {m : Nat}
    (hm : minimumCursor g = some m) : m = firstCursor g := by
  unfold minimumCursor at hm
  rw [List.min?_eq_some_iff] at hm
  obtain ⟨hmem, hle⟩ := hm
  obtain ⟨c, hc, rfl⟩ := List.mem_map.1 hmem
  have h₁ := firstCursor_le hg hc
  cases g with
  | nil => cases hc
  | cons a l =>
    have h₂ : c.cursor ≤ a.cursor := hle _ (by simp)
    have h₃ : firstCursor (a :: l) = a.cursor := rfl
    omega

/-! ## Planned units -/

/-- The units of a range: exactly its candidates, in the order of their least position. -/
structure Planned (changes : List AuthorityChange) (after : Nat) (units : List DeliveryUnit) : Prop where
  complete : ∀ c ∈ changes, after < c.cursor → ∃ u ∈ units, c ∈ u.changes
  sound : ∀ u ∈ units, ∀ c ∈ u.changes, c ∈ changes ∧ after < c.cursor
  ordered : units.Pairwise fun u w => ∀ m, minimumCursor u.changes = some m → ∀ c ∈ w.changes, m ≤ c.cursor
  nonempty : ∀ u ∈ units, u.changes = [] → ∀ c ∈ changes, c.cursor ≤ after

theorem boundUnits_changes (through : Nat) (gs : List (List AuthorityChange)) (index covered : Nat) :
    (boundUnits through gs index covered).map (·.changes) = gs := by
  induction gs generalizing index covered with
  | nil => rfl
  | cons g rest ih =>
    cases rest with
    | nil => rfl
    | cons h rest => simp only [boundUnits, List.map_cons, ih]

/-- **Planning loses no candidate, adds none and keeps their order.** -/
theorem planUnits_planned {changes : List AuthorityChange} {unique : List String}
    {dependencies : List (RecordKey × RecordKey)} {after through head : Nat} {units : List DeliveryUnit}
    (h : planUnits P changes unique dependencies after through head = .ok units) : Planned changes after units := by
  simp only [planUnits, bind_ok] at h
  obtain ⟨_, _, _, _, _, _, _, _, _, _, _, _, h⟩ := h
  -- the candidates in order, their groups, and the groups in order
  generalize hcand : (changes.filter fun c => decide (after < c.cursor)).insertionSort (candidateLe P) = candidates at h
  have hmem : ∀ c, c ∈ candidates ↔ c ∈ changes ∧ after < c.cursor := by
    intro c
    rw [← hcand, List.mem_insertionSort, List.mem_filter, decide_eq_true_eq]
  have hsorted : candidates.Pairwise (candidateLe P) := by
    rw [← hcand]
    exact List.pairwise_insertionSort _ _
  generalize hgs : (groups candidates (components P unique dependencies candidates)).insertionSort (groupLe P) = gs at h
  have hgroup : ∀ g, g ∈ gs ↔ g ∈ groups candidates (components P unique dependencies candidates) := by
    intro g
    rw [← hgs, List.mem_insertionSort]
  have hfull : ∀ c ∈ candidates, ∃ g ∈ gs, c ∈ g := by
    intro c hc
    obtain ⟨g, hg, hcg⟩ := mem_groups (length_components (P := P) unique dependencies candidates) hc
    exact ⟨g, (hgroup g).2 hg, hcg⟩
  have hsub : ∀ g ∈ gs, g.Sublist candidates := fun g hg => mem_of_groups ((hgroup g).1 hg)
  have hpair : gs.Pairwise (groupLe P) := by
    rw [← hgs]
    exact List.pairwise_insertionSort _ _
  split at h
  · -- no group, so no candidate
    rename_i hnone
    cases h
    have hempty : ∀ c ∈ changes, c.cursor ≤ after := by
      intro c hc
      by_contra hlt
      obtain ⟨g, hg, -⟩ := hfull c ((hmem c).2 ⟨hc, by omega⟩)
      rw [List.isEmpty_iff] at hnone
      simp [hnone] at hg
    refine ⟨fun c hc hlt => ?_, by simp, by simp, fun _ _ _ => hempty⟩
    have := hempty c hc
    omega
  · cases h
    have hchanges := boundUnits_changes through gs 0 after
    generalize boundUnits through gs 0 after = us at hchanges
    have hunit : ∀ u ∈ us, u.changes ∈ gs := by
      intro u hu
      rw [← hchanges]
      exact List.mem_map_of_mem hu
    refine ⟨?_, ?_, ?_, ?_⟩
    · intro c hc hlt
      obtain ⟨g, hg, hcg⟩ := hfull c ((hmem c).2 ⟨hc, hlt⟩)
      rw [← hchanges] at hg
      obtain ⟨u, hu, rfl⟩ := List.mem_map.1 hg
      exact ⟨u, hu, hcg⟩
    · intro u hu c hc
      exact (hmem c).1 ((hsub _ (hunit u hu)).subset hc)
    · rw [← hchanges, List.pairwise_map] at hpair
      refine hpair.imp_of_mem ?_
      intro u w hu hw hle m hm c hc
      have hu' := hsorted.sublist (hsub _ (hunit u hu))
      have hw' := hsorted.sublist (hsub _ (hunit w hw))
      rw [minimumCursor_eq hu' hm]
      refine le_trans ?_ (firstCursor_le hw' hc)
      -- both groups have a first candidate
      cases hx : u.changes with
      | nil => simp [firstCursor]
      | cons x xs =>
        cases hy : w.changes with
        | nil => simp [hy] at hc
        | cons y ys =>
          rw [hx, hy] at hle
          exact candidateLe.cursor_le (P := P) hle
    · intro u hu hnil
      have hin := hunit u hu
      rw [hnil, hgroup] at hin
      exact absurd hin (groups_ne_nil (length_components (P := P) unique dependencies candidates))

/-! ## Boundaries -/

/-- Units of a range from `covered` on: each boundary lies in the range and before every later change, and the last
unit ends the range. -/
def Cut (through : Nat) : Nat → List DeliveryUnit → Prop
  | _, [] => False
  | covered, [u] => covered ≤ through ∧ u.through = some through
  | covered, u :: w :: rest =>
    (∀ t, u.through = some t → covered ≤ t ∧ t < through ∧ ∀ x ∈ w :: rest, ∀ c ∈ x.changes, t < c.cursor) ∧
      Cut through (u.through.getD covered) (w :: rest)

/-- The boundaries `plan_units` gives its groups. -/
theorem boundUnits_cut {through : Nat} : ∀ {gs : List (List AuthorityChange)} (index : Nat) {covered : Nat}, gs ≠ [] →
    covered ≤ through → (∀ g ∈ gs, 0 < firstCursor g) → (∀ g ∈ gs, ∀ c ∈ g, firstCursor g ≤ c.cursor) →
    gs.Pairwise (fun g h => ∀ c ∈ h, firstCursor g ≤ c.cursor) → Cut through covered (boundUnits through gs index covered)
  | [], _, _, hne, _, _, _, _ => absurd rfl hne
  | [g], _, _, _, hle, _, _, _ => ⟨hle, rfl⟩
  | g :: h :: rest, index, covered, _, hle, hpos, hfirst, hpair => by
    have hlater : ∀ x ∈ h :: rest, ∀ c ∈ x, firstCursor h ≤ c.cursor := by
      intro x hx c hc
      rcases List.mem_cons.1 hx with rfl | hx
      · exact hfirst x (by simp) c hc
      · exact (List.pairwise_cons.1 (List.pairwise_cons.1 hpair).2).1 x hx c hc
    have hh : 0 < firstCursor h := hpos h (by simp)
    obtain ⟨w, us, hus⟩ : ∃ w us, boundUnits through (h :: rest) (index + 1)
        ((if 0 < through ∧ covered < min (through - 1) (firstCursor h - 1) then
          some (min (through - 1) (firstCursor h - 1)) else none).getD covered) = w :: us := by
      cases rest with
      | nil => exact ⟨_, _, rfl⟩
      | cons => exact ⟨_, _, rfl⟩
    have hchanges := boundUnits_changes through (h :: rest) (index + 1)
      ((if 0 < through ∧ covered < min (through - 1) (firstCursor h - 1) then
        some (min (through - 1) (firstCursor h - 1)) else none).getD covered)
    have next := @boundUnits_cut through (h :: rest) (index + 1)
      ((if 0 < through ∧ covered < min (through - 1) (firstCursor h - 1) then
        some (min (through - 1) (firstCursor h - 1)) else none).getD covered) (by simp)
      (by split <;> simp only [Option.getD_some, Option.getD_none] <;> omega)
      (fun x hx => hpos x (List.mem_cons_of_mem _ hx)) (fun x hx => hfirst x (List.mem_cons_of_mem _ hx))
      (List.pairwise_cons.1 hpair).2
    unfold boundUnits
    simp only
    rw [hus] at next hchanges ⊢
    refine ⟨fun t ht => ?_, next⟩
    split at ht
    · rename_i hcap
      simp only [Option.some.injEq] at ht
      refine ⟨by omega, by omega, fun x hx c hc => ?_⟩
      have hin : x.changes ∈ h :: rest := by
        rw [← hchanges]
        exact List.mem_map_of_mem hx
      have := hlater _ hin c hc
      omega
    · cases ht

/-- What the units of a range are besides `Planned`: cut into their range, with no identity and no position in two
of them. -/
structure Ranged (changes : List AuthorityChange) (after through : Nat) (units : List DeliveryUnit) : Prop
    extends Planned changes after units where
  cut : Cut through after units
  nodup : ((units.flatMap (·.changes)).map (·.key)).Nodup
  apart : units.Pairwise fun u w => ∀ c ∈ u.changes, ∀ d ∈ w.changes, c.cursor ≠ d.cursor
  length : units.length ≤ changes.length + 1

theorem nodup_flatten_keys {L : List (List AuthorityChange)} (hl : ∀ l ∈ L, (l.map (·.key)).Nodup)
    (hp : L.Pairwise fun g h => ∀ a ∈ g, ∀ b ∈ h, a.key ≠ b.key) : (L.flatten.map (·.key)).Nodup := by
  induction L with
  | nil => simp
  | cons l L ih =>
    rw [List.flatten_cons, List.map_append, List.nodup_append]
    obtain ⟨hhead, htail⟩ := List.pairwise_cons.1 hp
    refine ⟨hl l (by simp), ih (fun l' h' => hl l' (List.mem_cons_of_mem _ h')) htail, fun k hk k' hk' => ?_⟩
    obtain ⟨a, ha, rfl⟩ := List.mem_map.1 hk
    obtain ⟨b, hb, rfl⟩ := List.mem_map.1 hk'
    obtain ⟨g, hg, hbg⟩ := List.mem_flatten.1 hb
    exact hhead g hg a ha b hbg

/-- **Planning cuts the range.** -/
theorem planUnits_ranged {changes : List AuthorityChange} {unique : List String}
    {dependencies : List (RecordKey × RecordKey)} {after through head : Nat} {units : List DeliveryUnit}
    (h : planUnits P changes unique dependencies after through head = .ok units) : Ranged changes after through units := by
  have planned := planUnits_planned h
  simp only [planUnits, bind_ok, check_ok, Bool.and_eq_true, decide_eq_true_eq] at h
  obtain ⟨_, _, _, ⟨hrange, -⟩, _, _, _, _, _, hnodup, _, _, h⟩ := h
  generalize hcand : (changes.filter fun c => decide (after < c.cursor)).insertionSort (candidateLe P) = candidates at h
  have hsub : candidates.Perm (changes.filter fun c => decide (after < c.cursor)) := by
    rw [← hcand]
    exact List.perm_insertionSort _ _
  have hmem : ∀ c ∈ candidates, after < c.cursor := by
    intro c hc
    have hc' := List.mem_filter.1 (hsub.subset hc)
    simpa using hc'.2
  have htexts : (candidates.map (·.key.encoded P)).Nodup :=
    (hsub.map _).nodup_iff.2 ((List.filter_sublist.map _).nodup ((RecordKey.syncText_nodup AuthorityChange.key).1 hnodup))
  have hkeys : (candidates.map (·.key)).Nodup := by
    refine List.Nodup.of_map (RecordKey.encoded P) ?_
    rw [List.map_map]
    exact htexts
  have hsorted : candidates.Pairwise (candidateLe P) := by
    rw [← hcand]
    exact List.pairwise_insertionSort _ _
  have hlencand : candidates.length ≤ changes.length := hsub.length_eq ▸ List.length_filter_le _ _
  -- the groups, before they are ordered
  have hapart := groups_pairwise candidates (components P unique dependencies candidates)
    (R := fun a b => a.cursor ≠ b.cursor ∧ a.key ≠ b.key) fun {i j a b} ha hb hne => by
      refine ⟨fun hcur => hne ((components_iff htexts ha hb).2 ?_), fun hkey => hne ?_⟩
      · exact .rel _ _ ⟨List.mem_of_getElem? ha, List.mem_of_getElem? hb, .inl hcur⟩
      have hij : i = j := by
        obtain ⟨hi, -⟩ := List.getElem?_eq_some_iff.1 ha
        refine (List.getElem?_inj (by simpa using hi) hkeys).1 ?_
        rw [List.getElem?_map, List.getElem?_map, ha, hb]
        simpa using hkey
      rw [hij]
  have hne := groups_ne_nil (length_components (P := P) unique dependencies candidates)
  have hgsub : ∀ g ∈ groups candidates (components P unique dependencies candidates), g.Sublist candidates :=
    fun g hg => mem_of_groups hg
  have hglen : (groups candidates (components P unique dependencies candidates)).length ≤ candidates.length := by
    unfold groups
    rw [List.length_map, List.length_insertionSort, ← length_components (P := P) unique dependencies candidates]
    exact (List.dedup_sublist _).length_le
  generalize groups candidates (components P unique dependencies candidates) = gs₀ at h hapart hne hgsub hglen
  have hperm := List.perm_insertionSort (groupLe P) gs₀
  have hpair := List.pairwise_insertionSort (groupLe P) gs₀
  generalize gs₀.insertionSort (groupLe P) = gs at h hperm hpair
  have hapart' : gs.Pairwise fun g g' => ∀ a ∈ g, ∀ b ∈ g', a.cursor ≠ b.cursor ∧ a.key ≠ b.key := by
    refine (List.Perm.pairwise_iff ?_ hperm).2 hapart
    intro g g' hgg a ha b hb
    obtain ⟨h₁, h₂⟩ := hgg b hb a ha
    exact ⟨h₁.symm, h₂.symm⟩
  have hsub' : ∀ g ∈ gs, g.Sublist candidates := fun g hg => hgsub g (hperm.subset hg)
  have hfull : ∀ g ∈ gs, g ≠ [] := fun g hg hnil => hne (hnil ▸ hperm.subset hg)
  have hfirst : ∀ g ∈ gs, ∀ c ∈ g, firstCursor g ≤ c.cursor := fun g hg c hc =>
    firstCursor_le (hsorted.sublist (hsub' g hg)) hc
  split at h
  · cases h
    exact ⟨planned, ⟨hrange, rfl⟩, by simp, by simp, by simp⟩
  · rename_i hsome
    cases h
    have hchanges := boundUnits_changes through gs 0 after
    have hlen : (boundUnits through gs 0 after).length = gs.length := by
      rw [← List.length_map (f := (·.changes)), hchanges]
    have hcut : Cut through after (boundUnits through gs 0 after) := by
      refine boundUnits_cut 0 (by simpa using hsome) hrange (fun g hg => ?_) hfirst ?_
      · cases hx : g with
        | nil => exact absurd hx (hfull g hg)
        | cons x xs =>
          have hx' : x ∈ g := by simp [hx]
          have := hmem x ((hsub' g hg).subset hx')
          show 0 < x.cursor
          omega
      · refine hpair.imp_of_mem fun {g g'} hg hg' hle c hc => ?_
        refine le_trans ?_ (hfirst g' hg' c hc)
        cases hx : g with
        | nil => exact absurd hx (hfull g hg)
        | cons x xs =>
          cases hy : g' with
          | nil => exact absurd hy (hfull g' hg')
          | cons y ys =>
            rw [hx, hy] at hle
            exact candidateLe.cursor_le (P := P) hle
    refine ⟨planned, hcut, ?_, ?_, ?_⟩
    · rw [List.flatMap_def, hchanges]
      refine nodup_flatten_keys (fun g hg => ?_) (hapart'.imp fun hgg a ha b hb => (hgg a ha b hb).2)
      exact ((hsub' g hg).map _).nodup hkeys
    · have hmap := hapart'
      rw [← hchanges, List.pairwise_map] at hmap
      exact hmap.imp fun hgg c hc d hd => (hgg c hc d hd).1
    · rw [hlen, hperm.length_eq]
      omega

/-! ## Frozen headers -/

theorem suffixMinimum_le {units : List UnitManifest} {u : UnitManifest} (hu : u ∈ units) {m : Nat}
    (hm : u.minimumCursor = some m) : ∃ n, suffixMinimum units = some n ∧ n ≤ m := by
  induction units with
  | nil => cases hu
  | cons v rest ih =>
    rcases List.mem_cons.1 hu with rfl | hu
    · cases hs : suffixMinimum rest with
      | none => exact ⟨m, by simp [suffixMinimum, minPosition, hm, hs], le_refl _⟩
      | some n => exact ⟨min m n, by simp [suffixMinimum, minPosition, hm, hs], Nat.min_le_left _ _⟩
    · obtain ⟨n, hn, hle⟩ := ih hu
      cases hv : v.minimumCursor with
      | none => exact ⟨n, by simp [suffixMinimum, minPosition, hv, hn], hle⟩
      | some k => exact ⟨min k n, by simp [suffixMinimum, minPosition, hv, hn], by omega⟩

/-- A boundary of a validated header lies before every later unit. -/
theorem validateManifests_boundary {h : HeaderBody} : ∀ {units : List UnitManifest} {covered : Option Nat},
    validateManifests h units covered = .ok () →
    units.Pairwise fun u w => ∀ t, u.through = some t → ∀ m, w.minimumCursor = some m → t < m
  | [], _, _ => .nil
  | v :: rest, covered, hv => by
    simp only [validateManifests, bind_ok] at hv
    obtain ⟨_, _, _, _, hv⟩ := hv
    split at hv
    · rename_i hnone
      refine .cons (fun w _ t ht => ?_) (validateManifests_boundary hv)
      rw [hnone] at ht
      cases ht
    · rename_i t ht
      simp only [bind_ok, check_ok, Bool.and_eq_true] at hv
      obtain ⟨_, ⟨-, hsuffix⟩, hv⟩ := hv
      refine .cons (fun w hw t' ht' m hm => ?_) (validateManifests_boundary hv)
      rw [ht] at ht'
      cases ht'
      obtain ⟨n, hn, hle⟩ := suffixMinimum_le hw hm
      rw [hn] at hsuffix
      simp only [Option.all_some, decide_eq_true_eq] at hsuffix
      omega

theorem minimumCursor_le {changes : List AuthorityChange} {c : AuthorityChange} (hc : c ∈ changes) :
    ∃ m, minimumCursor changes = some m ∧ m ≤ c.cursor := by
  have hmem : c.cursor ∈ changes.map (·.cursor) := List.mem_map_of_mem hc
  cases hm : (changes.map (·.cursor)).min? with
  | none =>
    rw [List.min?_eq_none_iff] at hm
    rw [hm] at hmem
    cases hmem
  | some m => exact ⟨m, hm, (List.min?_eq_some_iff.1 hm).2 _ hmem⟩

/-- What the header of a frozen delivery says about the units it was frozen with. -/
structure FrozenDelivery.Holds (f : FrozenDelivery) (units : List DeliveryUnit) : Prop where
  valid : f.header.validate = .ok ()
  manifest : ∀ {i : Nat} {u : DeliveryUnit}, units[i]? = some u →
    ∃ m, f.header.units[i]? = some m ∧ m.digest = ⟨u⟩
  boundary : units.Pairwise fun u w => ∀ t, u.through = some t → ∀ c ∈ w.changes, t < c.cursor

/-- **A delivery freezes only with boundaries that lie before every later change.** -/
theorem freeze_holds {context : RequestContext} {planId : String} {bootstrap : Bool}
    {owner : Option MaterializationOwner} {after through : Option Nat} {observedHead expiresAt : Nat}
    {units : List DeliveryUnit} {partSize : Nat} {f : FrozenDelivery}
    (h : freeze context planId bootstrap owner after through observedHead expiresAt units partSize = .ok f) :
    f.Holds units ∧ f.header.toHeaderBody =
      { context, planId, bootstrap, owner, after, through, observedHead, expiresAt
        units := units.map (unitManifest partSize) } := by
  simp only [freeze, bind_ok, pure_ok] at h
  obtain ⟨_, _, _, _, _, hdelivery, rfl⟩ := h
  refine ⟨?_, rfl⟩
  simp only [validateDelivery, bind_ok] at hdelivery
  obtain ⟨_, hvalid, _⟩ := hdelivery
  refine ⟨hvalid, ?_, ?_⟩
  · intro i u hu
    exact ⟨unitManifest partSize u, by simp [hu], rfl⟩
  · simp only [DeliveryHeader.validate, bind_ok] at hvalid
    obtain ⟨_, _, _, _, _, _, _, _, _, _, _, hm, _⟩ := hvalid
    have hb := validateManifests_boundary hm
    rw [List.pairwise_map] at hb
    refine hb.imp fun {u w} hlt t ht c hc => ?_
    obtain ⟨m, hmin, hle⟩ := minimumCursor_le hc
    have := hlt t ht m hmin
    omega

end Axton
