import Axton.Client.Bounded

/-!
# Fragments and the units they make

A frozen delivery travels in parts. However they are batched, repeated and ordered, and wherever the queue keeps
them, a plan hands out a unit exactly when all its parts have arrived, and then it is the frozen unit.

`Arrived` relates a staged plan to the parts accepted so far, and every operation on the queue keeps it.
-/

namespace Axton

/-! ## What is frozen -/

namespace Frozen

variable {units : List DeliveryUnit} {size : Nat} {F : FrozenDelivery}

/-- An offer of some of the parts, in the delivery's own context and before it expires, is valid. -/
theorem offer_valid (h : Frozen units size F) {batch : List DeliveryPart} (hb : batch ⊆ F.parts)
    (hc : ∀ d ∈ batch, counter d.part = true) {now : Nat} (hnow : now < F.header.expiresAt) :
    DeliveryQueue.validateOffer F.header batch F.header.context now = .ok () := by
  have hv := h.header
  simp only [DeliveryHeader.validate, bind_ok, check_ok] at hv
  obtain ⟨_, hcontext, _, hplan, _⟩ := hv
  have hstore : F.header.context.admitStore F.header.context = .ok () := by
    simp [RequestContext.admitStore, hcontext]
  have hallow : F.header.admitContext F.header.context = .ok () := by
    simp only [DeliveryHeader.admitContext, admitOwnedContext, bind_ok]
    refine ⟨(), h.header, (), hstore, ?_⟩
    split
    · simp
    · simp [RequestContext.admitContext, hstore]
  simp only [DeliveryQueue.validateOffer, bind_ok, check_ok]
  refine ⟨(), by simp, (), hallow, (), by simpa using hnow, forM_ok.2 fun d hd => ?_⟩
  simp only [bind_ok, check_ok]
  obtain ⟨u, hu, l, j, hl, rfl⟩ := (h.parts d).1 (hb hd)
  obtain ⟨i, hi⟩ := List.mem_iff_getElem?.1 hu
  have hindex := h.index i u hi
  have hsub := chunk_sublist h.positive (List.mem_of_getElem? hl)
  have hunit := h.valid u hu
  simp only [DeliveryUnit.validate, bind_ok, check_ok, decide_eq_true_eq] at hunit
  obtain ⟨_, hcounter, _, _, _, hchanges, hnodup⟩ := hunit
  refine ⟨(), ?_, (), ?_, ?_⟩
  · simp only [DeliveryPart.validate, bind_ok, check_ok, decide_eq_true_eq]
    refine ⟨(), hplan, (), ?_, (), forM_ok.2 fun c hc => forM_ok.1 hchanges c (hsub.subset hc), (hsub.map _).nodup hnodup⟩
    rw [hcounter, hc _ hd]
    rfl
  · have hdigest : F.header.partDigest u.index j = some ⟨u.index, j, l⟩ := by
      simp only [HeaderBody.partDigest, h.manifests, List.getElem?_map, hindex, hi, Option.map_some, Option.bind_some,
        unitManifest, List.getElem?_zipIdx, hl, Nat.zero_add]
    simp [HeaderBody.names, hdigest, DeliveryPart.body]
  · simp only [List.all_eq_true, Bool.and_eq_true, decide_eq_true_eq]
    intro c hc
    obtain ⟨h1, h2⟩ := h.range u hu c (hsub.subset hc)
    refine ⟨h1, ?_⟩
    cases ha : F.header.after with
    | none => rfl
    | some a => simpa using h2 a ha

end Frozen

/-! ## What a plan hands out -/

/-- A staged plan holds the parts that arrived, less those of the units already applied. -/
structure Arrived (F : FrozenDelivery) (arrived : List DeliveryPart) (p : SpooledPlan) : Prop where
  header : p.header = F.header
  subset : arrived ⊆ F.parts
  sound : ∀ k s, p.parts.get k = some s → s.part ∈ arrived ∧ (s.part.unit, s.part.part) = k ∧ p.next ≤ k.1
  complete : ∀ d ∈ arrived, p.next ≤ d.unit → (p.parts.get (d.unit, d.part)).isSome

namespace Arrived

variable {units : List DeliveryUnit} {size : Nat} {F : FrozenDelivery} {arrived : List DeliveryPart} {p : SpooledPlan}
  {read : DeliveryPart → Except String DeliveryPart} {i : Nat} {u : DeliveryUnit}

theorem manifest (h : Arrived F arrived p) (hF : Frozen units size F) (hu : units[i]? = some u) :
    p.header.units[i]? = some (unitManifest size u) := by
  rw [h.header, hF.manifests, List.getElem?_map, hu, Option.map_some]

/-- A plan is complete where all parts are there. -/
theorem complete_iff (h : Arrived F arrived p) (hF : Frozen units size F) (hu : units[i]? = some u) (hi : p.next ≤ i) :
    p.contents.complete i = true ↔ ∀ d ∈ F.parts, d.unit = i → d ∈ arrived := by
  have hm : p.contents.header.units[i]? = some (unitManifest size u) := h.manifest hF hu
  have hlen : (unitManifest size u).parts.length = (unitChunks size u).length := by simp [unitManifest]
  simp only [Plan.complete, hm, Option.any_some, List.all_eq_true, List.mem_range, hlen, SpooledQueue.get_parts_contents,
    Option.isSome_map]
  constructor
  · intro hall d hd hdi
    have hc := hF.part_eq hu hd (by rw [hdi])
    have hget := hall d.part (List.getElem?_eq_some_iff.1 hc).1
    obtain ⟨s, hs⟩ := Option.isSome_iff_exists.1 hget
    obtain ⟨hmem, hkey, -⟩ := h.sound _ _ hs
    have hds : d = s.part := hF.part_inj hd (h.subset hmem) (by rw [hkey, hdi])
    rw [hds]
    exact hmem
  · intro hall j hj
    have hd : (⟨F.header.planId, F.header.digest, u.index, j, (unitChunks size u)[j]⟩ : DeliveryPart) ∈ F.parts :=
      (hF.parts _).2 ⟨u, List.mem_of_getElem? hu, _, j, List.getElem?_eq_getElem hj, rfl⟩
    have hindex := hF.index i u hu
    have := h.complete _ (hall _ hd hindex) (by simpa [hindex] using hi)
    simpa [hindex] using this

/-- A staged part reads back as its share of the unit. -/
theorem loadPart_eq (h : Arrived F arrived p) (hF : Frozen units size F) (hread : ∀ d, read d = .ok d)
    (hu : units[i]? = some u) {j : Nat} {s : StagedPart} (hs : p.parts.get (i, j) = some s) :
    ∃ l, (unitChunks size u)[j]? = some l ∧ p.loadPart read (unitManifest size u) i j = .ok l := by
  obtain ⟨hmem, hkey, -⟩ := h.sound _ _ hs
  have hl := hF.part_eq hu (h.subset hmem) hkey
  have hload : s.load read = .ok s.part := by
    unfold StagedPart.load
    split
    · rfl
    · exact hread _
  simp only [Prod.mk.injEq] at hkey
  refine ⟨_, hl, ?_⟩
  have hdigest : (unitManifest size u).parts[s.part.part]? = some ⟨s.part.body⟩ := by
    simp only [unitManifest, List.getElem?_map, List.getElem?_zipIdx, hkey.2, hl, Option.map_some, DeliveryPart.body,
      Nat.zero_add, hkey.1, hF.index i u hu]
  simp only [SpooledPlan.loadPart, hs, hload, bind, Except.bind, hdigest, Digest.matches_self, if_true]

/-- The parts of a complete unit read back in order. -/
theorem chunks_eq (h : Arrived F arrived p) (hF : Frozen units size F) (hread : ∀ d, read d = .ok d)
    (hu : units[i]? = some u) (hc : p.contents.complete i = true) :
    (List.range (unitManifest size u).parts.length).mapM (p.loadPart read (unitManifest size u) i) =
      .ok (unitChunks size u) := by
  have hm : p.contents.header.units[i]? = some (unitManifest size u) := h.manifest hF hu
  simp only [Plan.complete, hm, Option.any_some, List.all_eq_true, List.mem_range, SpooledQueue.get_parts_contents,
    Option.isSome_map] at hc
  have hlen : (unitManifest size u).parts.length = (unitChunks size u).length := by simp [unitManifest]
  refine mapM_ok.2 (List.forall₂_iff_get.2 ⟨by simp [hlen], fun j hj _ => ?_⟩)
  rw [List.length_range] at hj
  obtain ⟨s, hs⟩ := Option.isSome_iff_exists.1 (hc j hj)
  obtain ⟨l, hl, hload⟩ := h.loadPart_eq hF hread hu hs
  have : (unitChunks size u).get ⟨j, hlen ▸ hj⟩ = l := by
    have := List.getElem?_eq_some_iff.1 hl
    exact this.2
  rw [List.get_eq_getElem, List.getElem_range, this]
  exact hload

/-- All parts of a unit not yet applied arrived: the plan hands out the frozen unit. -/
theorem unit_some (h : Arrived F arrived p) (hF : Frozen units size F) (hread : ∀ d, read d = .ok d)
    (hu : units[i]? = some u) (hi : p.next ≤ i) (hall : ∀ d ∈ F.parts, d.unit = i → d ∈ arrived) :
    p.unit read i = .ok (some u) := by
  have hc := (h.complete_iff hF hu hi).2 hall
  have hm := h.manifest hF hu
  have hindex := hF.index i u hu
  have hself : (⟨i, (unitManifest size u).through, (unitChunks size u).flatten⟩ : DeliveryUnit) = u := by
    rw [unitChunks_flatten hF.positive, ← hindex]
    rfl
  unfold SpooledPlan.unit
  rw [hc]
  simp only [Bool.not_true, Bool.false_eq_true, if_false, hm]
  refine bind_ok.2 ⟨_, h.chunks_eq hF hread hu hc, ?_⟩
  simp only [hself]
  refine bind_ok.2 ⟨(), hF.valid u (List.mem_of_getElem? hu), bind_ok.2 ⟨(), ?_, rfl⟩⟩
  simp [unitManifest, unitChunks_flatten hF.positive]

/-- A part is missing: the plan hands out nothing yet. -/
theorem unit_none (h : Arrived F arrived p) (hF : Frozen units size F) (hu : units[i]? = some u) (hi : p.next ≤ i)
    (hsome : ∃ d ∈ F.parts, d.unit = i ∧ d ∉ arrived) : p.unit read i = .ok none := by
  have hc : ¬ p.contents.complete i = true := by
    rw [h.complete_iff hF hu hi]
    obtain ⟨d, hd, hdi, hn⟩ := hsome
    exact fun hall => hn (hall d hd hdi)
  unfold SpooledPlan.unit
  simp [hc]

/-- An applied unit is not handed out again, and there are no others. -/
theorem unit_other (h : Arrived F arrived p) (hF : Frozen units size F) (hi : i < p.next ∨ units.length ≤ i) :
    p.unit read i = .ok none := by
  have hc : p.contents.complete i = false := by
    by_contra hc
    rw [Bool.not_eq_false] at hc
    cases hu : units[i]? with
    | none =>
      have hm : p.contents.header.units[i]? = none := by
        change p.header.units[i]? = none
        rw [h.header, hF.manifests, List.getElem?_map, hu, Option.map_none]
      simp [Plan.complete, hm] at hc
    | some u =>
      have hlt : i < p.next := by
        rcases hi with hi | hi
        · exact hi
        · exact absurd (List.getElem?_eq_some_iff.1 hu).1 (not_lt.2 hi)
      have hm : p.contents.header.units[i]? = some (unitManifest size u) := h.manifest hF hu
      have hne : 0 < (unitManifest size u).parts.length := by
        simpa [unitManifest] using List.length_pos_iff.2 (unitChunks_ne_nil size u)
      simp only [Plan.complete, hm, Option.any_some, List.all_eq_true, List.mem_range, SpooledQueue.get_parts_contents,
        Option.isSome_map] at hc
      obtain ⟨s, hs⟩ := Option.isSome_iff_exists.1 (hc 0 hne)
      exact absurd (h.sound _ _ hs).2.2 (not_le.2 hlt)
  unfold SpooledPlan.unit
  simp [hc]

end Arrived

/-! ## Operations on the queue -/

namespace SpooledQueue

variable {z : Sizes} {disk : Disk} {q q' : SpooledQueue} {F : FrozenDelivery} {arrived : List DeliveryPart}
  {p p' : SpooledPlan} {id : String}

/-- What an operation on other plans may do to a plan: move its parts, block or unblock it. -/
structure Untouched (p p' : SpooledPlan) : Prop where
  header : p'.header = p.header
  next : p'.next = p.next
  parts : ∀ k, (p'.parts.get k).map StagedPart.part = (p.parts.get k).map StagedPart.part

theorem untouched_of_contents (h : p'.contents = p.contents) : Untouched p p' where
  header := congrArg Plan.header h
  next := congrArg Plan.next h
  parts k := by rw [← get_parts_contents, ← get_parts_contents, h]

theorem Untouched.keeps (hu : Untouched p p') (h : Arrived F arrived p) : Arrived F arrived p' where
  header := hu.header.trans h.header
  subset := h.subset
  sound := by
    intro k s hs
    have hk := hu.parts k
    rw [hs, Option.map_some] at hk
    obtain ⟨s', hs', he⟩ := Option.map_eq_some_iff.1 hk.symm
    rw [hu.next, ← he]
    exact h.sound k s' hs'
  complete := by
    intro d hd hn
    have hk := congrArg Option.isSome (hu.parts (d.unit, d.part))
    simp only [Option.isSome_map] at hk
    rw [hk]
    exact h.complete d hd (hu.next ▸ hn)

theorem get_filter {t : Table String SpooledPlan} (hn : (t.map (·.1)).Nodup) {f : String × SpooledPlan → Bool}
    (h : Table.get (t.filter f) id = some p) : t.get id = some p :=
  Table.get_of_mem hn (List.mem_filter.1 (Table.mem_of_get h)).1

theorem get_filterParts {t : Table (Nat × Nat) StagedPart} {next : Nat} {k : Nat × Nat} {s : StagedPart}
    (h : Table.get (t.filter fun e => decide (next ≤ e.1.1)) k = some s) : t.get k = some s ∧ next ≤ k.1 := by
  have hk : next ≤ k.1 := by simpa using (List.mem_filter.1 (Table.mem_of_get h)).2
  refine ⟨?_, hk⟩
  rw [← h]
  clear h
  induction t with
  | nil => rfl
  | cons e t ih =>
    by_cases he : next ≤ e.1.1
    · simp only [List.filter_cons, he, decide_true, if_true, Table.get, ih]
    · have hne : e.1 ≠ k := fun hek => he (hek ▸ hk)
      simp only [List.filter_cons, he, decide_false, Bool.false_eq_true, if_false, Table.get, hne, ih]

theorem get_map (id : String) (t : Table String SpooledPlan) (g : String → SpooledPlan → SpooledPlan) :
    Table.get (t.map fun e => (e.1, g e.1 e.2)) id = (t.get id).map (g id) := by
  induction t with
  | nil => rfl
  | cons e t ih =>
    by_cases he : e.1 = id
    · simp [Table.get, he]
    · simpa [Table.get, he] using ih

theorem get_adjust (q : SpooledQueue) (other : String) (f : SpooledPlan → SpooledPlan) :
    (q.adjust other f).plans.get id = (q.plans.get id).map fun p => if id = other then f p else p := by
  have h := get_map id q.plans fun i p => if i = other then f p else p
  rw [← h]
  simp only [adjust]
  congr 2
  funext e
  split <;> rfl

/-- The plan under an id, after an operation on other plans that kept it. -/
theorem get_of_contents (hc : (q'.plans.get id).map SpooledPlan.contents = (q.plans.get id).map SpooledPlan.contents)
    (h : q'.plans.get id = some p') : ∃ p, q.plans.get id = some p ∧ Untouched p p' := by
  rw [h, Option.map_some] at hc
  obtain ⟨p, hp, he⟩ := Option.map_eq_some_iff.1 hc.symm
  exact ⟨p, hp, untouched_of_contents he.symm⟩

/-- An offer of another plan leaves this one alone, or evicts it. -/
theorem receiveBounded_other {header : DeliveryHeader} {parts : List DeliveryPart} {active : RequestContext} {now : Nat}
    {speculative : Bool} (hid : header.planId ≠ id)
    (h : (q.receiveBounded z disk header parts active now speculative).1.plans.get id = some p') :
    ∃ p, q.plans.get id = some p ∧ Untouched p p' := by
  have hev : ∀ p', (q.evicted z header parts).plans.get id = some p' → q.plans.get id = some p' := by
    intro p' hp'
    rcases get_evict z (q.metadataNew z header) (q.extra z header parts) id (q.contents.candidates header) q with hg | hg
    · rw [← hg]
      exact hp'
    · rw [evicted, hg] at hp'
      cases hp'
  have hkept : ∀ r : SpooledQueue, r.contents = (q.evicted z header parts).contents → ∀ p', r.plans.get id = some p' →
      ∃ p, q.plans.get id = some p ∧ Untouched p p' := by
    intro r hr p' hp'
    have hc : (r.plans.get id).map SpooledPlan.contents =
        ((q.evicted z header parts).plans.get id).map SpooledPlan.contents := by
      rw [← get_contents, ← get_contents, hr]
    obtain ⟨p, hp, hu⟩ := get_of_contents hc hp'
    exact ⟨p, hev p hp, hu⟩
  by_cases hok : (q.receiveBounded z disk header parts active now speculative).2 = .ok true
  · obtain ⟨hacc⟩ := q.receiveBounded_accepted z disk hok
    rw [hacc.result] at h
    simp only [insert, Table.get_insertionSort, Table.get_set_ne _ _ hid] at h
    refine hkept hacc.spilled.2 ?_ p' h
    rw [hacc.spill]
    exact spill_contents _
  · rcases q.receiveBounded_refused z disk hok with hr | hr | ⟨hstage, hr⟩
    · rw [hr] at h
      exact ⟨p', h, untouched_of_contents rfl⟩
    · rw [hr] at h
      exact hkept _ rfl p' h
    · rw [hr] at h
      exact hkept _ (stageOffer_refused z disk _ hstage).1 p' h

/-! ### Offers of the plan itself -/

theorem get_staging (staged : List StagedPart) (k : Nat × Nat) :
    (staging p staged).parts.get k = (p.parts.setAll (stagedRows staged)).get k :=
  Table.get_insertionSort_of (fun _ _ h => .inr ⟨congrArg Prod.fst h, (congrArg Prod.snd h).le⟩) _ _

/-- The offered parts a plan takes. -/
def takes (p : SpooledPlan) (d : DeliveryPart) : Bool :=
  !(decide (d.unit < p.next) || (p.parts.get (d.unit, d.part)).isSome)

theorem missing_eq (q : SpooledQueue) (header : DeliveryHeader) (parts : List DeliveryPart) :
    q.missing header parts = parts.filter (takes ((q.plans.get header.planId).getD { header })) := by
  unfold missing takes
  cases q.plans.get header.planId with
  | none => rfl
  | some e => rfl

/-- A batch of the plan's parts is staged. -/
theorem staging_arrived (h : Arrived F arrived p) {batch : List DeliveryPart} (hb : batch ⊆ F.parts)
    {staged : List StagedPart} (hs : staged.map StagedPart.part = batch.filter (takes p)) :
    Arrived F (arrived ++ batch) (staging p staged) where
  header := h.header
  subset := List.append_subset.2 ⟨h.subset, hb⟩
  sound := by
    intro k s hk
    rw [get_staging] at hk
    rcases Table.get_setAll p.parts (stagedRows staged) k with hold | ⟨v, hv, hnew⟩
    · obtain ⟨h1, h2, h3⟩ := h.sound k s (hold.symm.trans hk)
      exact ⟨List.mem_append_left _ h1, h2, h3⟩
    · rw [hnew] at hk
      cases hk
      obtain ⟨v', hv', he⟩ := List.mem_map.1 hv
      simp only [Prod.mk.injEq] at he
      obtain ⟨rfl, rfl⟩ := he
      have hm : v'.part ∈ batch.filter (takes p) := by
        rw [← hs]
        exact List.mem_map_of_mem hv'
      obtain ⟨hm, ht⟩ := List.mem_filter.1 hm
      simp only [takes, Bool.not_eq_true', Bool.or_eq_false_iff, decide_eq_false_iff_not, not_lt] at ht
      exact ⟨List.mem_append_right _ hm, rfl, ht.1⟩
  complete := by
    intro d hd hn
    rw [get_staging, Table.isSome_setAll]
    by_cases hp : (p.parts.get (d.unit, d.part)).isSome
    · exact .inl hp
    · rcases List.mem_append.1 hd with hd | hd
      · exact absurd (h.complete d hd hn) hp
      · refine .inr ?_
        have hm : d ∈ staged.map StagedPart.part := by
          rw [hs]
          refine List.mem_filter.2 ⟨hd, ?_⟩
          have hn' : p.next ≤ d.unit := hn
          simp [takes, hp, hn']
        obtain ⟨v, hv, rfl⟩ := List.mem_map.1 hm
        simp only [stagedRows, List.map_map, List.mem_map]
        exact ⟨v, hv, rfl⟩

/-- What the queue holds of a delivery: nothing yet, or what arrived. -/
def Holds (q : SpooledQueue) (F : FrozenDelivery) (arrived : List DeliveryPart) : Prop :=
  (q.plans.get F.header.planId = none ∧ arrived = []) ∨
    ∃ p, q.plans.get F.header.planId = some p ∧ Arrived F arrived p

theorem Accepted.holds (hn : (q.plans.map (·.1)).Nodup) (h : q.Holds F arrived) {batch : List DeliveryPart}
    (hb : batch ⊆ F.parts) {active : RequestContext} {now : Nat}
    (hacc : q.Accepted z disk F.header batch active now q') : q'.Holds F (arrived ++ batch) := by
  have hplan := hacc.plan hn
  have hbase : Arrived F arrived ((hacc.spilled.2.plans.get F.header.planId).getD { header := F.header }) := by
    cases hg : hacc.spilled.2.plans.get F.header.planId with
    | none =>
      rw [hg, Option.map_none] at hplan
      rcases h with ⟨-, rfl⟩ | ⟨p, hp, -⟩
      · exact ⟨rfl, List.nil_subset _, nofun, nofun⟩
      · rw [hp] at hplan
        cases hplan
    | some e =>
      obtain ⟨p, hp, hu⟩ := get_of_contents hplan hg
      rcases h with ⟨hnone, -⟩ | ⟨p', hp', ha⟩
      · rw [hnone] at hp
        cases hp
      · rw [hp'] at hp
        cases hp
        exact hu.keeps ha
  have hstaged : hacc.staged.map StagedPart.part =
      batch.filter (takes ((hacc.spilled.2.plans.get F.header.planId).getD { header := F.header })) := by
    rw [← missing_eq, ((placed_ok z disk).1 hacc.placed).1]
    exact placing_parts ..
  have hget := get_insert hacc.spilled.2 F.header hacc.staged
  rw [foldl_set_rows] at hget
  have hres := congrArg (fun r : SpooledQueue => r.plans.get F.header.planId) hacc.result
  exact .inr ⟨_, hres.trans hget, staging_arrived hbase hb hstaged⟩

/-- A refused offer of the plan itself leaves it as it was. -/
theorem refused_holds (hn : (q.plans.map (·.1)).Nodup) (h : q.Holds F arrived) {batch : List DeliveryPart}
    {active : RequestContext} {now : Nat} {speculative : Bool}
    (hr : (q.receiveBounded z disk F.header batch active now speculative).2 ≠ .ok true) :
    (q.receiveBounded z disk F.header batch active now speculative).1.Holds F arrived := by
  have hkept : ∀ r : SpooledQueue, (r.plans.get F.header.planId).map SpooledPlan.contents =
      (q.plans.get F.header.planId).map SpooledPlan.contents → r.Holds F arrived := by
    intro r hc
    rcases h with ⟨hnone, rfl⟩ | ⟨p, hp, ha⟩
    · rw [hnone, Option.map_none] at hc
      exact .inl ⟨Option.map_eq_none_iff.1 hc, rfl⟩
    · rw [hp, Option.map_some] at hc
      obtain ⟨p', hp', he⟩ := Option.map_eq_some_iff.1 hc
      exact .inr ⟨p', hp', (untouched_of_contents he).keeps ha⟩
  by_cases hp : q.Passes F.header batch active now
  · have hev : (q.evicted z F.header batch).plans.get F.header.planId = q.plans.get F.header.planId :=
      get_evicted hn hp.same
    rcases q.receiveBounded_refused z disk hr with hq | hq | ⟨hstage, hq⟩
    · rw [hq]
      exact h
    · rw [hq]
      exact hkept _ (by rw [hev])
    · rw [hq]
      refine hkept _ ?_
      rw [← get_contents, (stageOffer_refused z disk _ hstage).1, get_contents, hev]
  · rw [(q.receiveBounded_fails z disk hp speculative).1]
    exact h

/-! ### Applying units -/

theorem advance_arrived (h : Arrived F arrived p) {next : Nat} (hn : p.next ≤ next) : Arrived F arrived (p.advance next) where
  header := h.header
  subset := h.subset
  sound := by
    intro k s hs
    obtain ⟨hget, hk⟩ := get_filterParts hs
    obtain ⟨h1, h2, -⟩ := h.sound k s hget
    exact ⟨h1, h2, hk⟩
  complete := by
    intro d hd hnd
    have hnd' : next ≤ d.unit := hnd
    have hsome := h.complete d hd (hn.trans hnd')
    rw [Table.get_isSome_iff] at hsome ⊢
    obtain ⟨e, he, hkey⟩ := List.mem_map.1 hsome
    exact List.mem_map.2 ⟨e, List.mem_filter.2 ⟨he, by simpa [hkey] using hnd'⟩, hkey⟩

/-- A plan that was applied goes on behind the unit. -/
theorem applyUnit_next {E : Engine} {now : Nat} {x : Engine.Selected} {report : Option ApplyReport} {next : Nat}
    {s t : Store} (h : E.applyUnit now x s = .ok ((report, next), t)) : x.unit.index < next ∨ next = x.next := by
  simp only [Engine.applyUnit, bind_ok, check_ok] at h
  obtain ⟨_, -, h⟩ := h
  split at h
  · rename_i hlt
    simp only [pure_ok, Prod.mk.injEq] at h
    exact .inl (h.1.2 ▸ hlt)
  · simp only [bind_ok, pure_ok, Prod.mk.injEq, Prod.exists] at h
    obtain ⟨_, _, _, _, _, _, _, _, _, _, _, ⟨_, hnext⟩, _⟩ := h
    exact .inr hnext.symm

theorem nodup_contents (hn : (q.plans.map (·.1)).Nodup) : (q.contents.map (·.1)).Nodup := by
  simpa [contents, Function.comp_def] using hn

/-- What applying does to a plan that stays: nothing, a block, or an advance behind the unit. -/
theorem applyNext_get (hn : (q.plans.map (·.1)).Nodup) {E : Engine} {now : Nat} {s : Store}
    (h : (q.applyNext E now s).1.plans.get id = some p') :
    ∃ p, q.plans.get id = some p ∧ (Untouched p p' ∨ ∃ next, p.next ≤ next ∧ p' = p.advance next) := by
  have hexpire : ((q.expire now).plans.map (·.1)).Nodup := (List.filter_sublist.map _).nodup hn
  have hlive : ∀ p, (q.live now s).plans.get id = some p → q.plans.get id = some p := fun p hp =>
    get_filter hn (get_filter hexpire hp)
  have hsame : ∀ p : SpooledPlan, Untouched p p := fun p => untouched_of_contents rfl
  unfold applyNext at h
  simp only at h
  split at h
  · exact ⟨p', hlive p' h, .inl (hsame p')⟩
  · exact ⟨p', hlive p' h, .inl (hsame p')⟩
  · exact ⟨p', hlive p' h, .inl (hsame p')⟩
  · rename_i x hchoose
    split at h
    · rw [get_adjust] at h
      obtain ⟨p, hp, he⟩ := Option.map_eq_some_iff.1 h
      refine ⟨p, hlive p hp, .inl ?_⟩
      split at he
      · rw [← he]
        exact ⟨rfl, rfl, fun _ => rfl⟩
      · rw [← he]
        exact hsame p
    · rename_i report next t happly
      have hkeep : ((q.live now s).plans.map (·.1)).Nodup := (List.filter_sublist.map _).nodup hexpire
      unfold applied at h
      simp only at h
      split at h
      · rw [Table.get_erase] at h
        split at h
        · cases h
        · exact ⟨p', hlive p' (get_filter hkeep h), .inl (hsame p')⟩
      · rw [get_adjust] at h
        obtain ⟨p, hp, he⟩ := Option.map_eq_some_iff.1 h
        have hq := hlive p (get_filter hkeep hp)
        refine ⟨p, hq, ?_⟩
        split at he
        · rename_i hid
          refine .inr ⟨next, ?_, he.symm⟩
          -- the unit that was applied is the plan's next one
          obtain ⟨pc, hpc, hheader, hunit, -⟩ := Engine.choose_unit hchoose
          have hget : Table.get q.contents x.id = some pc := Table.get_of_mem (nodup_contents hn) hpc
          rw [get_contents, ← hid, hq, Option.map_some, Option.some.injEq] at hget
          obtain ⟨hindex, manifest, hm, -⟩ := Plan.unit_digest hunit
          have hlt := (List.getElem?_eq_some_iff.1 hm).1
          have hnext : pc.next = p.next := by rw [← hget]; rfl
          rcases applyUnit_next happly with h1 | h1
          · omega
          · rw [h1, Engine.Selected.next]
            split
            · rw [hheader]
              omega
            · omega
        · rw [← he]
          exact .inl (hsame p)

/-- An action on other plans keeps what the queue holds of a delivery, unless it removes its plan. -/
theorem act_holds (hn : (q.plans.map (·.1)).Nodup) (h : q.Holds F arrived) {a : Action}
    (ha : ∀ header, a.offers = some header → header.planId ≠ F.header.planId)
    (hstay : (q.plans.get F.header.planId).isSome → ((q.act z a).plans.get F.header.planId).isSome) :
    (q.act z a).Holds F arrived := by
  have hget : ∀ p', (q.act z a).plans.get F.header.planId = some p' →
      ∃ p, q.plans.get F.header.planId = some p ∧ (Untouched p p' ∨ ∃ next, p.next ≤ next ∧ p' = p.advance next) := by
    intro p' hp'
    cases a with
    | receive disk header parts active now =>
      obtain ⟨p, hp, hu⟩ := receiveBounded_other (ha header rfl) hp'
      exact ⟨p, hp, .inl hu⟩
    | receivePrefetched disk header parts active now =>
      obtain ⟨p, hp, hu⟩ := receiveBounded_other (ha header rfl) hp'
      exact ⟨p, hp, .inl hu⟩
    | receiveOwned disk P request response active now =>
      have hother := ha response.delivery.header rfl
      have hr : ∀ p', (q.receive z disk response.delivery.header response.delivery.parts active now).1.plans.get
          F.header.planId = some p' → ∃ p, q.plans.get F.header.planId = some p ∧ Untouched p p' :=
        fun p' hp' => receiveBounded_other hother hp'
      simp only [act, receiveOwned] at hp'
      split at hp'
      · exact ⟨p', hp', .inl (untouched_of_contents rfl)⟩
      · split at hp'
        · rename_i hq
          rw [hq] at hr
          obtain ⟨p, hp, hu⟩ := hr p' hp'
          exact ⟨p, hp, .inl hu⟩
        · rename_i hq
          rw [hq] at hr
          split at hp'
          · obtain ⟨p, hp, hu⟩ := hr p' hp'
            exact ⟨p, hp, .inl hu⟩
          · rw [get_adjust] at hp'
            obtain ⟨p'', hp'', he⟩ := Option.map_eq_some_iff.1 hp'
            rw [if_neg (Ne.symm hother)] at he
            obtain ⟨p, hp, hu⟩ := hr p'' hp''
            exact ⟨p, hp, .inl (he ▸ hu)⟩
    | expire now => exact ⟨p', get_filter hn hp', .inl (untouched_of_contents rfl)⟩
    | retryBlocked =>
      have hm := get_map F.header.planId q.plans fun _ p => { p with blocked := false }
      change Table.get _ _ = _ at hp'
      simp only [act, retryBlocked] at hp'
      rw [hm] at hp'
      obtain ⟨p, hp, rfl⟩ := Option.map_eq_some_iff.1 hp'
      exact ⟨p, hp, .inl ⟨rfl, rfl, fun _ => rfl⟩⟩
    | apply E now s => exact applyNext_get hn hp'
  rcases h with ⟨hnone, rfl⟩ | ⟨p, hp, harr⟩
  · refine .inl ⟨?_, rfl⟩
    rcases hq : (q.act z a).plans.get F.header.planId with _ | p'
    · rfl
    · obtain ⟨p, hp, -⟩ := hget p' hq
      rw [hnone] at hp
      cases hp
  · obtain ⟨p', hp'⟩ := Option.isSome_iff_exists.1 (hstay (by rw [hp]; rfl))
    obtain ⟨p'', hp'', hu⟩ := hget p' hp'
    rw [hp] at hp''
    cases hp''
    refine .inr ⟨p', hp', ?_⟩
    rcases hu with hu | ⟨next, hle, rfl⟩
    · exact hu.keeps harr
    · exact advance_arrived harr hle

/-- A queue, from empty, that was offered the parts of a delivery in batches: `arrived` are those it accepted. In
between it is used for other plans in any way that keeps this one. -/
inductive Offered (z : Sizes) (F : FrozenDelivery) : SpooledQueue → List DeliveryPart → Prop
  | empty (capacity slots payloadLimit : Nat) : Offered z F (withLimits capacity slots payloadLimit) []
  | accepted {q : SpooledQueue} {arrived : List DeliveryPart} (disk : Disk) (batch : List DeliveryPart)
      (active : RequestContext) (now : Nat) : Offered z F q arrived → batch ⊆ F.parts →
      (q.receive z disk F.header batch active now).2 = .ok () →
      Offered z F (q.receive z disk F.header batch active now).1 (arrived ++ batch)
  | refused {q : SpooledQueue} {arrived : List DeliveryPart} (disk : Disk) (batch : List DeliveryPart)
      (active : RequestContext) (now : Nat) (e : String) : Offered z F q arrived →
      (q.receive z disk F.header batch active now).2 = .error e →
      Offered z F (q.receive z disk F.header batch active now).1 arrived
  | other {q : SpooledQueue} {arrived : List DeliveryPart} (a : Action) : Offered z F q arrived →
      (∀ header, a.offers = some header → header.planId ≠ F.header.planId) →
      ((q.plans.get F.header.planId).isSome → ((q.act z a).plans.get F.header.planId).isSome) →
      Offered z F (q.act z a) arrived

theorem Offered.bounded (h : Offered z F q arrived) : Bounded z q := by
  induction h with
  | empty capacity slots payloadLimit => exact ⟨List.nodup_nil, Nat.zero_le _, Nat.zero_le _, Nat.zero_le _⟩
  | accepted disk batch active now _ _ _ ih => exact act_bounded ih (.receive disk F.header batch active now)
  | refused disk batch active now e _ _ ih => exact act_bounded ih (.receive disk F.header batch active now)
  | other a _ _ _ ih => exact act_bounded ih a

theorem Offered.holds (h : Offered z F q arrived) : q.Holds F arrived := by
  induction h with
  | empty capacity slots payloadLimit => exact .inl ⟨rfl, rfl⟩
  | accepted disk batch active now hq hb hok ih =>
    obtain ⟨hacc⟩ := receive_accepted z disk _ hok
    exact hacc.holds hq.bounded.nodup ih hb
  | refused disk batch active now e hq he ih =>
    refine refused_holds hq.bounded.nodup ih fun hok => ?_
    simp only [receive, hok] at he
    cases he
  | other a hq ha hstay ih => exact act_holds hq.bounded.nodup ih ha hstay

/-- Fragmentation round-trips. Of the units a delivery was frozen from, a queue that was offered its parts hands out
exactly those whose parts have all arrived, as they were frozen; of the others, and of those already applied,
nothing; and it never fails. An offer in the delivery's own context is refused only when it expired or by a limit. -/
theorem fragments_reassemble {context : RequestContext} {planId : String} {bootstrap : Bool}
    {owner : Option MaterializationOwner} {after through : Option Nat} {observedHead expiresAt : Nat}
    {units : List DeliveryUnit} {size : Nat}
    (frozen : freeze context planId bootstrap owner after through observedHead expiresAt units size = .ok F)
    {read : DeliveryPart → Except String DeliveryPart} (readBack : ∀ d, read d = .ok d) (offered : Offered z F q arrived) :
    ((q.plans.get F.header.planId = none ∧ arrived = []) ∨
      ∃ p, q.plans.get F.header.planId = some p ∧
        (∀ (i : Nat) (u : DeliveryUnit), units[i]? = some u → p.next ≤ i →
          ((∀ d ∈ F.parts, d.unit = i → d ∈ arrived) → p.unit read i = .ok (some u)) ∧
          ((∃ d ∈ F.parts, d.unit = i ∧ d ∉ arrived) → p.unit read i = .ok none)) ∧
        ∀ i, i < p.next ∨ units.length ≤ i → p.unit read i = .ok none) ∧
    ∀ batch ⊆ F.parts, (∀ d ∈ batch, counter d.part = true) → ∀ now < F.header.expiresAt,
      DeliveryQueue.validateOffer F.header batch F.header.context now = .ok () := by
  have hF := frozen_of_freeze frozen
  refine ⟨?_, fun batch hb hc now hnow => hF.offer_valid hb hc hnow⟩
  rcases offered.holds with h | ⟨p, hp, ha⟩
  · exact .inl h
  · refine .inr ⟨p, hp, fun i u hu hi => ⟨?_, ?_⟩, fun i hi => ha.unit_other hF hi⟩
    · exact ha.unit_some hF readBack hu hi
    · exact ha.unit_none hF hu hi

end SpooledQueue

namespace Notes

open SpooledQueue

/-- A unit of two notes, one to a part. -/
def twoNotes : DeliveryUnit :=
  ⟨0, some 1, ["y", "z"].map fun id => .record ⟨"note", .obj [("id", .str id)]⟩ 1 (.obj [])⟩

def twoParts : FrozenDelivery := notesPage "a" 0 ["y", "z"]

theorem twoParts_frozen : freeze twoParts.header.context "a" false none (some 0) (some 1) 3 10000 [twoNotes] 1 =
    .ok twoParts :=
  ok_of_toOption (by decide +kernel)

/-- The second part first, then the first one twice; the queue is too small to keep either in memory. -/
def secondFirst : SpooledQueue :=
  (receive noteSizes .working (withLimits 520 2 1000) twoParts.header (twoParts.parts.drop 1) twoParts.header.context 1).1

def thenTwice : List DeliveryPart := twoParts.parts.take 1 ++ twoParts.parts.take 1

def bothArrived : SpooledQueue :=
  (receive noteSizes .working secondFirst twoParts.header thenTwice twoParts.header.context 2).1

theorem bothArrived_offered : Offered noteSizes twoParts bothArrived ([] ++ twoParts.parts.drop 1 ++ thenTwice) := by
  refine .accepted .working thenTwice _ 2 (.accepted .working (twoParts.parts.drop 1) _ 1 (.empty 520 2 1000) ?_ ?_) ?_ ?_
  · exact List.drop_subset _ _
  · decide +kernel
  · decide +kernel
  · decide +kernel

theorem fragments_reassemble_notes : ∃ p, bothArrived.plans.get "a" = some p ∧
    (p.parts.map fun e => e.2.memory) = [false, false] ∧ p.unit .ok 0 = .ok (some twoNotes) := by
  have hsome : (bothArrived.plans.get "a").map (fun p => (p.next, p.parts.map fun e => e.2.memory)) =
      some (0, [false, false]) := by decide +kernel
  rcases (fragments_reassemble twoParts_frozen (fun _ => rfl) bothArrived_offered).1 with ⟨h, -⟩ | ⟨p, hp, hu, -⟩
  · have h' : bothArrived.plans.get "a" = none := h
    rw [h'] at hsome
    cases hsome
  · have hp' : bothArrived.plans.get "a" = some p := hp
    rw [hp', Option.map_some, Option.some.injEq, Prod.mk.injEq] at hsome
    refine ⟨p, hp', hsome.2, (hu 0 twoNotes rfl hsome.1.le).1 ?_⟩
    decide +kernel

end Notes

end Axton
