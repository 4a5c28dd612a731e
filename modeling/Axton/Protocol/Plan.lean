import Axton.Protocol.Freeze
import Mathlib.Data.List.Perm.Basic

/-!
# The planner computes the constraint components

`plan_units` is given as an imperative union-find over three sources of edges and a running bound. What it returns is
determined by the changes alone: one unit for each class of the closure of the links, in the order of their least
positions, with boundaries that rise to the end of the range.

* `planUnits_component` — the units are the classes;
* `planUnits_increasing` — their boundaries rise;
* `planUnits_perm` — the order of the input lists does not matter;
* `planUnits_exact` — all of it, for every valid input.
-/

namespace Axton

variable {P : Platform} {unique : List String} {dependencies : List (RecordKey × RecordKey)}

/-! ## Groups are classes -/

/-- The links of two lists of candidates with the same members. -/
theorem constrained_congr {candidates candidates' : List AuthorityChange} {unique' : List String}
    {dependencies' : List (RecordKey × RecordKey)} (hc : ∀ c, c ∈ candidates → c ∈ candidates')
    (hu : ∀ m, m ∈ unique → m ∈ unique') (hd : ∀ d, d ∈ dependencies → d ∈ dependencies') {a b : AuthorityChange}
    (h : Constrained P unique dependencies candidates a b) : Constrained P unique' dependencies' candidates' a b := by
  refine Relation.EqvGen.mono (fun a b => ?_) a b h
  rintro ⟨ha, hb, hlink⟩
  refine ⟨hc a ha, hc b hb, ?_⟩
  rcases hlink with hcur | ⟨hmodel, hin⟩ | ⟨d, hd', hda, hdb⟩
  · exact .inl hcur
  · exact .inr (.inl ⟨hmodel, hu _ hin⟩)
  · exact .inr (.inr ⟨d, hd d hd', hda, hdb⟩)

/-- Candidates in one place of the order are one. -/
theorem candidateLe_antisymm {l : List AuthorityChange} (hkeys : (l.map (·.key.encoded P)).Nodup) {a b : AuthorityChange}
    (ha : a ∈ l) (hb : b ∈ l) (h : candidateLe P a b) (h' : candidateLe P b a) : a = b := by
  refine List.inj_on_of_nodup_map ((RecordKey.syncText_nodup AuthorityChange.key).2 hkeys) ha hb ?_
  rcases h with hlt | ⟨hcur, hab⟩
  · have := h'.cursor_le
    omega
  · rcases h' with hlt | ⟨-, hba⟩
    · omega
    · exact le_antisymm (not_lt.1 hab) (not_lt.1 hba)

/-- Two ordered lists of the same candidates are equal. -/
theorem eq_of_mem_iff {l l' : List AuthorityChange} (hkeys : (l.map (·.key.encoded P)).Nodup)
    (hkeys' : (l'.map (·.key.encoded P)).Nodup) (hl : l.Pairwise (candidateLe P)) (hl' : l'.Pairwise (candidateLe P))
    (h : ∀ c, c ∈ l ↔ c ∈ l') : l = l' := by
  have hperm : l.Perm l' := (List.perm_ext_iff_of_nodup hkeys.of_map hkeys'.of_map).2 h
  exact hperm.eq_of_pairwise (fun a b ha hb hab hba => candidateLe_antisymm hkeys ha ((h b).2 hb) hab hba) hl hl'

section
variable {candidates : List AuthorityChange}

/-- **A group is the class of each of its members.** -/
theorem mem_group_iff (hkeys : (candidates.map (·.key.encoded P)).Nodup) {g : List AuthorityChange}
    (hg : g ∈ groups candidates (components P unique dependencies candidates)) {a : AuthorityChange} (ha : a ∈ g)
    {b : AuthorityChange} : b ∈ g ↔ b ∈ candidates ∧ Constrained P unique dependencies candidates a b := by
  obtain ⟨r, -, rfl⟩ := List.mem_map.1 hg
  obtain ⟨i, hi, hri⟩ := mem_members_iff.1 ha
  constructor
  · intro hb
    obtain ⟨j, hj, hrj⟩ := mem_members_iff.1 hb
    exact ⟨List.mem_of_getElem? hj, (components_iff hkeys hi hj).1 (hri.trans hrj.symm)⟩
  · rintro ⟨hb, hab⟩
    obtain ⟨j, hj⟩ := List.mem_iff_getElem?.1 hb
    exact mem_members_iff.2 ⟨j, hj, ((components_iff hkeys hi hj).2 hab).symm.trans hri⟩

/-- Two groups with a common member are one. -/
theorem groups_nodup (hkeys : (candidates.map (·.key.encoded P)).Nodup) :
    (groups candidates (components P unique dependencies candidates)).Nodup := by
  have hapart := groups_pairwise candidates (components P unique dependencies candidates)
    (R := fun a b => a ≠ b) fun {i j a b} ha hb hne => by
      rintro rfl
      exact hne ((components_iff hkeys ha hb).2 (.refl a))
  refine hapart.imp_of_mem fun {g g'} hg _ hdisjoint hsame => ?_
  subst hsame
  cases hx : g with
  | nil => exact groups_ne_nil (length_components (P := P) unique dependencies candidates) (hx ▸ hg)
  | cons x xs =>
    have hmem : x ∈ g := by simp [hx]
    exact hdisjoint x hmem x hmem rfl

/-- Groups of the same links with a common member are equal, whatever numbers the union-find gave them: both are the
candidates of one class, in candidate order. -/
theorem group_eq {unique' : List String} {dependencies' : List (RecordKey × RecordKey)}
    (hkeys : (candidates.map (·.key.encoded P)).Nodup) (hsorted : candidates.Pairwise (candidateLe P))
    (hu : ∀ m, m ∈ unique ↔ m ∈ unique') (hd : ∀ d, d ∈ dependencies ↔ d ∈ dependencies') {g g' : List AuthorityChange}
    (hg : g ∈ groups candidates (components P unique dependencies candidates))
    (hg' : g' ∈ groups candidates (components P unique' dependencies' candidates)) {x : AuthorityChange} (hx : x ∈ g)
    (hx' : x ∈ g') : g = g' := by
  refine eq_of_mem_iff (((mem_of_groups hg).map _).nodup hkeys) (((mem_of_groups hg').map _).nodup hkeys)
    (hsorted.sublist (mem_of_groups hg)) (hsorted.sublist (mem_of_groups hg')) fun c => ?_
  rw [mem_group_iff hkeys hg hx, mem_group_iff hkeys hg' hx']
  constructor
  · rintro ⟨hc, hxc⟩
    exact ⟨hc, constrained_congr (fun _ h => h) (fun m => (hu m).1) (fun d => (hd d).1) hxc⟩
  · rintro ⟨hc, hxc⟩
    exact ⟨hc, constrained_congr (fun _ h => h) (fun m => (hu m).2) (fun d => (hd d).2) hxc⟩

theorem groups_perm {unique' : List String} {dependencies' : List (RecordKey × RecordKey)}
    (hkeys : (candidates.map (·.key.encoded P)).Nodup) (hsorted : candidates.Pairwise (candidateLe P))
    (hu : ∀ m, m ∈ unique ↔ m ∈ unique') (hd : ∀ d, d ∈ dependencies ↔ d ∈ dependencies') :
    (groups candidates (components P unique dependencies candidates)).Perm
      (groups candidates (components P unique' dependencies' candidates)) := by
  have subset : ∀ {u u' : List String} {ds ds' : List (RecordKey × RecordKey)}, (∀ m, m ∈ u ↔ m ∈ u') →
      (∀ d, d ∈ ds ↔ d ∈ ds') → ∀ g ∈ groups candidates (components P u ds candidates),
      g ∈ groups candidates (components P u' ds' candidates) := by
    intro u u' ds ds' hu hd g hg
    obtain ⟨x, hx⟩ := List.exists_mem_of_ne_nil g fun hnil =>
      groups_ne_nil (length_components (P := P) u ds candidates) (hnil ▸ hg)
    obtain ⟨g', hg', hx'⟩ := mem_groups (length_components (P := P) u' ds' candidates) ((mem_group_iff hkeys hg hx).1 hx).1
    rw [group_eq hkeys hsorted hu hd hg hg' hx hx']
    exact hg'
  rw [List.perm_ext_iff_of_nodup (groups_nodup hkeys) (groups_nodup hkeys)]
  intro g
  exact ⟨subset hu hd g, subset (fun m => (hu m).symm) (fun d => (hd d).symm) g⟩

/-- Groups in one place of the order are one. -/
theorem groupLe_antisymm (hkeys : (candidates.map (·.key.encoded P)).Nodup) (hsorted : candidates.Pairwise (candidateLe P))
    {g g' : List AuthorityChange} (hg : g ∈ groups candidates (components P unique dependencies candidates))
    (hg' : g' ∈ groups candidates (components P unique dependencies candidates)) (h : groupLe P g g')
    (h' : groupLe P g' g) : g = g' := by
  have hne := groups_ne_nil (length_components (P := P) unique dependencies candidates)
  cases hx : g with
  | nil => exact absurd (hx ▸ hg) hne
  | cons x xs =>
    cases hy : g' with
    | nil => exact absurd (hy ▸ hg') hne
    | cons y ys =>
      have hxg : x ∈ g := by simp [hx]
      have hyg : y ∈ g' := by simp [hy]
      rw [hx, hy] at h h'
      have hxy : x = y := candidateLe_antisymm hkeys ((mem_of_groups hg).subset hxg) ((mem_of_groups hg').subset hyg) h h'
      rw [← hx, ← hy]
      exact group_eq hkeys hsorted (fun _ => Iff.rfl) (fun _ => Iff.rfl) hg hg' hxg (hxy ▸ hyg)

end

/-! ## Units -/

/-- The candidates of a range, in order. -/
def ordered (P : Platform) (changes : List AuthorityChange) (after : Nat) : List AuthorityChange :=
  (changes.filter fun c => decide (after < c.cursor)).insertionSort (candidateLe P)

theorem mem_ordered {changes : List AuthorityChange} {after : Nat} {c : AuthorityChange} :
    c ∈ ordered P changes after ↔ c ∈ changes ∧ after < c.cursor := by
  simp [ordered]

theorem ordered_pairwise (changes : List AuthorityChange) (after : Nat) :
    (ordered P changes after).Pairwise (candidateLe P) := List.pairwise_insertionSort _ _

theorem ordered_nodup {changes : List AuthorityChange} (after : Nat) (h : (changes.map (·.key.encoded P)).Nodup) :
    ((ordered P changes after).map (·.key.encoded P)).Nodup :=
  ((List.perm_insertionSort _ _).map _).nodup_iff.2 ((List.filter_sublist.map _).nodup h)

section
variable {changes : List AuthorityChange} {after through head : Nat} {units : List DeliveryUnit}

/-- The units after their checks. -/
def unitsOf (P : Platform) (unique : List String) (dependencies : List (RecordKey × RecordKey))
    (changes : List AuthorityChange) (after through : Nat) : List DeliveryUnit :=
  let gs := (groups (ordered P changes after) (components P unique dependencies (ordered P changes after))).insertionSort
    (groupLe P)
  if gs.isEmpty then [⟨0, some through, []⟩] else boundUnits through gs 0 after

theorem planUnits_ok (h : planUnits P changes unique dependencies after through head = .ok units) :
    (changes.map (·.key.encoded P)).Nodup ∧ units = unitsOf P unique dependencies changes after through := by
  simp only [planUnits, bind_ok, check_ok, decide_eq_true_eq] at h
  obtain ⟨_, _, _, _, _, _, _, _, _, hnodup, _, _, h⟩ := h
  refine ⟨(RecordKey.syncText_nodup AuthorityChange.key).1 hnodup, ?_⟩
  unfold unitsOf ordered
  simp only
  split at h
  · rename_i hnil
    cases h
    rw [if_pos hnil]
  · rename_i hsome
    cases h
    rw [if_neg hsome]

/-- The changes of a unit are a group. -/
theorem mem_groups_of_unit {u : DeliveryUnit} (hu : u ∈ unitsOf P unique dependencies changes after through) :
    u.changes = [] ∨ u.changes ∈ groups (ordered P changes after) (components P unique dependencies (ordered P changes after)) := by
  unfold unitsOf at hu
  simp only at hu
  split at hu
  · rw [List.mem_singleton.1 hu]
    exact .inl rfl
  · refine .inr ?_
    have hmem : u.changes ∈ (boundUnits through ((groups (ordered P changes after)
        (components P unique dependencies (ordered P changes after))).insertionSort (groupLe P)) 0 after).map (·.changes) :=
      List.mem_map_of_mem hu
    rw [boundUnits_changes] at hmem
    exact (List.perm_insertionSort _ _).subset hmem

/-- **The units are the constraint components.** -/
theorem planUnits_component (h : planUnits P changes unique dependencies after through head = .ok units)
    {u : DeliveryUnit} (hu : u ∈ units) {a b : AuthorityChange} (ha : a ∈ u.changes) :
    b ∈ u.changes ↔ (b ∈ changes ∧ after < b.cursor) ∧
      Constrained P unique dependencies (changes.filter fun c => decide (after < c.cursor)) a b := by
  obtain ⟨hkeys, rfl⟩ := planUnits_ok h
  have hfilter : ∀ c, c ∈ ordered P changes after ↔ c ∈ changes.filter fun c => decide (after < c.cursor) := by
    intro c
    simp [mem_ordered]
  rcases mem_groups_of_unit hu with hnil | hg
  · rw [hnil] at ha
    cases ha
  · rw [mem_group_iff (ordered_nodup after hkeys) hg ha, mem_ordered]
    constructor
    · rintro ⟨hb, hab⟩
      exact ⟨hb, constrained_congr (fun c => (hfilter c).1) (fun _ h => h) (fun _ h => h) hab⟩
    · rintro ⟨hb, hab⟩
      exact ⟨hb, constrained_congr (fun c => (hfilter c).2) (fun _ h => h) (fun _ h => h) hab⟩

theorem boundUnits_increasing (through : Nat) : ∀ (gs : List (List AuthorityChange)) (index covered : Nat),
    (covered :: ((boundUnits through gs index covered).dropLast.filterMap (·.through))).Pairwise (· < ·)
  | [], _, _ => by simp [boundUnits]
  | [g], _, _ => by simp [boundUnits]
  | g :: h :: rest, index, covered => by
    have next := boundUnits_increasing through (h :: rest) (index + 1)
      ((if 0 < through ∧ covered < min (through - 1) (firstCursor h - 1) then
        some (min (through - 1) (firstCursor h - 1)) else none).getD covered)
    obtain ⟨w, us, hus⟩ : ∃ w us, boundUnits through (h :: rest) (index + 1)
        ((if 0 < through ∧ covered < min (through - 1) (firstCursor h - 1) then
          some (min (through - 1) (firstCursor h - 1)) else none).getD covered) = w :: us := by
      cases rest with
      | nil => exact ⟨_, _, rfl⟩
      | cons => exact ⟨_, _, rfl⟩
    unfold boundUnits
    simp only
    rw [hus] at next ⊢
    rw [List.dropLast_cons_cons]
    split at next
    · rename_i hcap
      rw [if_pos hcap, List.filterMap_cons]
      simp only [Option.getD_some] at next ⊢
      refine List.pairwise_cons.2 ⟨fun b hb => ?_, next⟩
      rcases List.mem_cons.1 hb with rfl | hb
      · exact hcap.2
      · exact lt_trans hcap.2 ((List.pairwise_cons.1 next).1 b hb)
    · rename_i hcap
      rw [if_neg hcap, List.filterMap_cons]
      simpa using next

/-- **The boundaries before the last rise.** -/
theorem planUnits_increasing (h : planUnits P changes unique dependencies after through head = .ok units) :
    (units.dropLast.filterMap (·.through)).Pairwise (· < ·) := by
  obtain ⟨-, rfl⟩ := planUnits_ok h
  unfold unitsOf
  simp only
  split
  · simp
  · exact (List.pairwise_cons.1 (boundUnits_increasing _ _ _ _)).2

/-- **The order of the input lists does not matter.** -/
theorem unitsOf_congr {changes' : List AuthorityChange} {unique' : List String}
    {dependencies' : List (RecordKey × RecordKey)} (hkeys : (changes.map (·.key.encoded P)).Nodup)
    (hc : changes.Perm changes') (hu : ∀ m, m ∈ unique ↔ m ∈ unique') (hd : ∀ d, d ∈ dependencies ↔ d ∈ dependencies') :
    unitsOf P unique dependencies changes after through = unitsOf P unique' dependencies' changes' after through := by
  have hkeys' : (changes'.map (·.key.encoded P)).Nodup := (hc.map _).nodup_iff.1 hkeys
  have hcandidates : ordered P changes after = ordered P changes' after := by
    refine eq_of_mem_iff (ordered_nodup after hkeys) (ordered_nodup after hkeys') (ordered_pairwise _ _)
      (ordered_pairwise _ _) fun c => ?_
    rw [mem_ordered, mem_ordered, hc.mem_iff]
  have hnodup := ordered_nodup after hkeys'
  have hsorted := ordered_pairwise (P := P) changes' after
  unfold unitsOf
  rw [hcandidates]
  have hperm := groups_perm hnodup hsorted hu hd
  have hgroups : (groups (ordered P changes' after) (components P unique dependencies (ordered P changes' after))).insertionSort
      (groupLe P) = (groups (ordered P changes' after)
        (components P unique' dependencies' (ordered P changes' after))).insertionSort (groupLe P) := by
    have hleft := List.perm_insertionSort (groupLe P)
      (groups (ordered P changes' after) (components P unique dependencies (ordered P changes' after)))
    have hright := List.perm_insertionSort (groupLe P)
      (groups (ordered P changes' after) (components P unique' dependencies' (ordered P changes' after)))
    refine (hleft.trans (hperm.trans hright.symm)).eq_of_pairwise (fun g g' hg hg' h h' => ?_)
      (List.pairwise_insertionSort _ _) (List.pairwise_insertionSort _ _)
    exact groupLe_antisymm hnodup hsorted (hleft.subset hg) (hperm.symm.subset (hright.subset hg')) h h'
  rw [hgroups]

end

/-! ## Every valid input -/

/-- What `plan_units` is for: a unit for each constraint component of the changes after `after`, in order, with
boundaries that rise to `through` and lie before every later change. -/
structure PlansComponents (P : Platform) (unique : List String) (dependencies : List (RecordKey × RecordKey))
    (changes : List AuthorityChange) (after through : Nat) (units : List DeliveryUnit) : Prop where
  partition : (units.flatMap (·.changes)).Perm (changes.filter fun c => decide (after < c.cursor))
  component : ∀ u ∈ units, ∀ a ∈ u.changes, ∀ b ∈ changes, after < b.cursor →
    (b ∈ u.changes ↔ Constrained P unique dependencies (changes.filter fun c => decide (after < c.cursor)) a b)
  ordered : units.Pairwise fun u w => ∀ m n, minimumCursor u.changes = some m → minimumCursor w.changes = some n → m < n
  bounded : ∀ u ∈ units, ∀ b, u.through = some b → after ≤ b ∧ b ≤ through
  before : units.Pairwise fun u w => ∀ b, u.through = some b → ∀ c ∈ w.changes, b < c.cursor
  increasing : (units.dropLast.filterMap (·.through)).Pairwise (· < ·)
  ends : units.getLast?.bind (·.through) = some through

theorem Cut.le_through {through : Nat} : ∀ {us : List DeliveryUnit} {covered : Nat}, Cut through covered us →
    ∀ u ∈ us, ∀ b, u.through = some b → covered ≤ b
  | [], _, h, _, _, _, _ => absurd h id
  | [u], covered, h, u', hu, b, hb => by
    rw [List.mem_singleton.1 hu, h.2] at hb
    cases hb
    exact h.1
  | u :: w :: rest, covered, h, u', hu, b, hb => by
    rcases List.mem_cons.1 hu with rfl | hu
    · exact (h.1 b hb).1
    · have next := Cut.le_through h.2 u' hu b hb
      refine le_trans ?_ next
      cases ht : u.through with
      | none => exact le_refl _
      | some t => exact (h.1 t ht).1

theorem Cut.before {through : Nat} : ∀ {us : List DeliveryUnit} {covered : Nat}, Cut through covered us →
    us.Pairwise fun u w => ∀ b, u.through = some b → ∀ c ∈ w.changes, b < c.cursor
  | [], _, h => absurd h id
  | [_], _, _ => by simp
  | _ :: _ :: _, _, h => List.pairwise_cons.2 ⟨fun x hx b hb c hc => (h.1 b hb).2.2 x hx c hc, Cut.before h.2⟩

section
variable {changes : List AuthorityChange} {after through head : Nat}

theorem planUnits_plans {units : List DeliveryUnit}
    (h : planUnits P changes unique dependencies after through head = .ok units) :
    PlansComponents P unique dependencies changes after through units := by
  have spec := planUnits_ranged h
  obtain ⟨hkeys, -⟩ := planUnits_ok h
  refine ⟨?_, fun u hu a ha b hb hlt => ?_, ?_, fun u hu b hb => ?_, spec.cut.before, planUnits_increasing h,
    spec.cut.getLast⟩
  · rw [List.perm_ext_iff_of_nodup spec.nodup.of_map ((List.filter_sublist.map _).nodup hkeys).of_map]
    intro c
    rw [List.mem_flatMap, List.mem_filter, decide_eq_true_eq]
    constructor
    · rintro ⟨u, hu, hc⟩
      exact spec.sound u hu c hc
    · rintro ⟨hc, hlt⟩
      exact spec.complete c hc hlt
  · rw [planUnits_component h hu ha]
    exact ⟨fun hab => hab.2, fun hab => ⟨⟨hb, hlt⟩, hab⟩⟩
  · refine (spec.ordered.and spec.apart).imp ?_
    rintro u w ⟨hle, hne⟩ m n hm hn
    obtain ⟨hmemM, -⟩ := List.min?_eq_some_iff.1 hm
    obtain ⟨hmemN, -⟩ := List.min?_eq_some_iff.1 hn
    obtain ⟨a, ha, rfl⟩ := List.mem_map.1 hmemM
    obtain ⟨b, hb, rfl⟩ := List.mem_map.1 hmemN
    have h₁ := hle _ hm b hb
    have h₂ := hne a ha b hb
    omega
  · exact ⟨spec.cut.le_through u hu b hb, spec.cut.through_le u hu b hb⟩

/-- **`plan_units` computes exactly the constraint components**, for every list of valid changes with distinct keys, and
whatever the order of its input lists. -/
theorem planUnits_exact (hhead : counter head = true) (hrange : after ≤ through) (hthrough : through ≤ head)
    (hvalid : ∀ c ∈ changes, c.validate = .ok ()) (hbelow : ∀ c ∈ changes, c.cursor ≤ head)
    (hkeys : (changes.map (·.key.encoded P)).Nodup)
    (hdependencies : ∀ d ∈ dependencies, d.1.validate = .ok () ∧ d.2.validate = .ok ()) :
    ∃ units, planUnits P changes unique dependencies after through head = .ok units ∧
      PlansComponents P unique dependencies changes after through units ∧
      ∀ changes' unique' dependencies', changes.Perm changes' → unique.Perm unique' → dependencies.Perm dependencies' →
        planUnits P changes' unique' dependencies' after through head = .ok units := by
  obtain ⟨units, hunits⟩ := planUnits_total unique hhead hrange hthrough hvalid hbelow hkeys hdependencies
  refine ⟨units, hunits, planUnits_plans hunits, fun changes' unique' dependencies' hc hu hd => ?_⟩
  obtain ⟨units', hunits'⟩ := planUnits_total unique' hhead hrange hthrough (fun c h => hvalid c (hc.mem_iff.2 h))
    (fun c h => hbelow c (hc.mem_iff.2 h)) ((hc.map _).nodup_iff.1 hkeys) (fun d h => hdependencies d (hd.mem_iff.2 h))
  rw [hunits', (planUnits_ok hunits').2, (planUnits_ok hunits).2,
    unitsOf_congr hkeys hc (fun m => hu.mem_iff) (fun d => hd.mem_iff)]

end

namespace Notes

def noteAt (id : String) (cursor : Nat) : AuthorityChange := .record ⟨"note", .obj [("id", .str id)]⟩ cursor .null

/-- Two notes around a removed tag. -/
def planned : List AuthorityChange := [noteAt "a" 6, .remove ⟨"tag", .obj [("id", .str "t")]⟩ 7, noteAt "b" 8]

end Notes

/-- Notes have a unique set, so both travel together, and the tag between them alone. -/
theorem planUnits_exact_notes : ∃ units,
    planUnits Notes.platform Notes.planned ["note"] [] 5 8 9 = .ok units ∧
      ∀ u ∈ units, Notes.noteAt "a" 6 ∈ u.changes → Notes.noteAt "b" 8 ∈ u.changes := by
  obtain ⟨units, hunits, plans, -⟩ := @planUnits_exact Notes.platform ["note"] [] Notes.planned 5 8 9 (by decide) (by decide)
    (by decide) (by decide +kernel) (by decide) (by decide +kernel) (by simp)
  refine ⟨units, hunits, fun u hu ha => ?_⟩
  refine (plans.component u hu _ ha _ (by decide) (by decide)).2 (.rel _ _ ⟨by decide, by decide, ?_⟩)
  exact .inr (.inl ⟨rfl, by decide⟩)

end Axton
