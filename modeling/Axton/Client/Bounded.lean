import Axton.Client.Limits

/-!
# The queue stays within its limits

Every operation on a delivery queue keeps `Bounded`: the slots, the bytes of the manifests, the bytes of the
staged parts, and what of both is in memory. Operations that only forget (`Shrinks`) keep it for free; an
accepted offer is the one case that adds.
-/

namespace Axton

namespace SpooledQueue

/-- The limits of a queue. -/
structure Bounded (z : Sizes) (q : SpooledQueue) : Prop where
  nodup : (q.plans.map (·.1)).Nodup
  plans : q.plans.length ≤ q.slots
  payload : q.payload z ≤ q.payloadLimit
  memory : q.metadata z + q.inMemory z ≤ q.capacity

/-- An operation that adds nothing. -/
structure Shrinks (z : Sizes) (q q' : SpooledQueue) : Prop where
  limits : SameLimits q q'
  ids : (q'.plans.map (·.1)).Sublist (q.plans.map (·.1))
  metadata : q'.metadata z ≤ q.metadata z
  payload : q'.payload z ≤ q.payload z
  inMemory : q'.inMemory z ≤ q.inMemory z

section
variable {z : Sizes} {disk : Disk} {q q' q'' : SpooledQueue}

theorem Shrinks.refl (q : SpooledQueue) : Shrinks z q q :=
  ⟨⟨rfl, rfl, rfl⟩, List.Sublist.refl _, le_rfl, le_rfl, le_rfl⟩

theorem Shrinks.trans (h : Shrinks z q q') (h' : Shrinks z q' q'') : Shrinks z q q'' where
  limits := ⟨h'.limits.capacity.trans h.limits.capacity, h'.limits.slots.trans h.limits.slots,
    h'.limits.payloadLimit.trans h.limits.payloadLimit⟩
  ids := h'.ids.trans h.ids
  metadata := h'.metadata.trans h.metadata
  payload := h'.payload.trans h.payload
  inMemory := h'.inMemory.trans h.inMemory

theorem Bounded.shrinks (hb : Bounded z q) (h : Shrinks z q q') : Bounded z q' where
  nodup := h.ids.nodup hb.nodup
  plans := by
    have h1 := h.ids.length_le
    have h2 := hb.plans
    simp only [List.length_map] at h1
    rw [h.limits.slots]
    omega
  payload := by
    rw [h.limits.payloadLimit]
    exact h.payload.trans hb.payload
  memory := by
    have h1 := h.metadata
    have h2 := h.inMemory
    have h3 := hb.memory
    rw [h.limits.capacity]
    omega

theorem Shrinks.sublist (hl : SameLimits q q') (hs : q'.plans.Sublist q.plans) : Shrinks z q q' :=
  ⟨hl, hs.map _, Table.total_sublist _ hs, Table.total_sublist _ hs, Table.total_sublist _ hs⟩

theorem shrinks_filter (q : SpooledQueue) (f : String × SpooledPlan → Bool) :
    Shrinks z q { q with plans := q.plans.filter f } :=
  .sublist ⟨rfl, rfl, rfl⟩ List.filter_sublist

/-- Plans changed in place, none of them by a new header or more bytes. -/
theorem shrinks_map (q : SpooledQueue) {g : String × SpooledPlan → String × SpooledPlan} (hid : ∀ e, (g e).1 = e.1)
    (hh : ∀ e, (g e).2.header = e.2.header) (hp : ∀ e, (g e).2.payload z ≤ e.2.payload z)
    (hm : ∀ e, (g e).2.inMemory z ≤ e.2.inMemory z) : Shrinks z q { q with plans := q.plans.map g } where
  limits := ⟨rfl, rfl, rfl⟩
  ids := by simp [Function.comp_def, hid]
  metadata := Table.total_map_le _ _ fun e => by rw [hh]
  payload := Table.total_map_le _ _ hp
  inMemory := Table.total_map_le _ _ hm

theorem shrinks_adjust (q : SpooledQueue) (id : String) {f : SpooledPlan → SpooledPlan} (hh : ∀ p, (f p).header = p.header)
    (hp : ∀ p, (f p).parts.Sublist p.parts) : Shrinks z q (q.adjust id f) := by
  refine shrinks_map q (fun e => ?_) (fun e => ?_) (fun e => ?_) fun e => ?_
  · split <;> rfl
  · split
    · exact hh e.2
    · rfl
  · split
    · exact Table.total_sublist _ (hp e.2)
    · exact le_rfl
  · split
    · exact Table.total_sublist _ (hp e.2)
    · exact le_rfl

theorem shrinks_expire (q : SpooledQueue) (now : Nat) : Shrinks z q (q.expire now) := shrinks_filter q _

theorem shrinks_retryBlocked (q : SpooledQueue) : Shrinks z q q.retryBlocked :=
  shrinks_map q (fun _ => rfl) (fun _ => rfl) (fun _ => le_rfl) fun _ => le_rfl

theorem shrinks_evicted (q : SpooledQueue) (header : DeliveryHeader) (parts : List DeliveryPart) :
    Shrinks z q (q.evicted z header parts) :=
  .sublist (evict_limits ..) (evict_sublist ..)

theorem shrinks_spill (q : SpooledQueue) (budget : Nat) : Shrinks z q (q.spill z disk budget).2 where
  limits := ⟨rfl, rfl, rfl⟩
  ids := by
    have h : (q.spill z disk budget).2.contents.map Prod.fst = q.contents.map Prod.fst := by rw [spill_contents]
    simp only [contents, List.map_map, Function.comp_def] at h
    rw [h]
  metadata := (metadata_of_contents (spill_contents budget)).le
  payload := (payload_of_contents (spill_contents budget)).le
  inMemory := spill_inMemory_le budget

/-- Staging that fails has moved parts to disk at most. -/
theorem stageOffer_shrinks {header : DeliveryHeader} {parts : List DeliveryPart} {m : Nat}
    (h : (q.stageOffer z disk header parts m).2 ≠ .ok true) : Shrinks z q (q.stageOffer z disk header parts m).1 := by
  unfold stageOffer at h ⊢
  simp only at h ⊢
  split
  · exact shrinks_spill q _
  · rename_i hf
    rw [hf] at h
    simp only at h
    split
    · exact shrinks_spill q _
    · rename_i hp
      rw [hp] at h
      exact absurd rfl h

theorem shrinks_live (q : SpooledQueue) (now : Nat) (s : Store) : Shrinks z q (q.live now s) :=
  (shrinks_expire q now).trans (shrinks_filter (q.expire now) _)

theorem shrinks_applied (q : SpooledQueue) (id : String) (next units : Nat) (active : List String) :
    Shrinks z q (q.applied id next units active) := by
  unfold applied
  simp only
  split
  · exact (shrinks_filter q _).trans (shrinks_filter _ _)
  · exact (shrinks_filter q _).trans (shrinks_adjust _ _ (fun _ => rfl) fun _ => List.filter_sublist)

theorem shrinks_applyNext (q : SpooledQueue) (E : Engine) (now : Nat) (s : Store) :
    Shrinks z q (q.applyNext E now s).1 := by
  unfold applyNext
  simp only
  split
  · exact shrinks_live q now s
  · exact shrinks_live q now s
  · exact shrinks_live q now s
  · split
    · exact (shrinks_live q now s).trans
        (shrinks_adjust (f := fun p => { p with blocked := true }) _ _ (fun _ => rfl) fun _ => List.Sublist.refl _)
    · exact (shrinks_live q now s).trans (shrinks_applied _ _ _ _ _)

/-! ## An accepted offer -/

theorem placing_parts (z : Sizes) (capacity headers : Nat) : ∀ (memory : Nat) (parts : List DeliveryPart),
    (placing z capacity headers memory parts).map StagedPart.part = parts
  | _, [] => rfl
  | memory, p :: rest => by
    unfold placing
    split
    · rw [List.map_cons, placing_parts z capacity headers _ rest]
    · rw [List.map_cons, placing_parts z capacity headers _ rest]

/-- Bytes of the parts placed in memory. -/
def placedBytes (z : Sizes) (staged : List StagedPart) : Nat :=
  (staged.map fun p => if p.memory then z.part p.part else 0).sum

/-- Parts are placed in memory only while they and the headers fit into half the capacity. -/
theorem placing_memory (z : Sizes) (capacity headers : Nat) : ∀ (memory : Nat) (parts : List DeliveryPart),
    placedBytes z (placing z capacity headers memory parts) = 0 ∨
      memory + placedBytes z (placing z capacity headers memory parts) + headers ≤ capacity / 2
  | _, [] => .inl rfl
  | memory, p :: rest => by
    unfold placing
    split
    · rename_i hfit
      have h := placing_memory z capacity headers (memory + z.part p) rest
      simp only [placedBytes, List.map_cons, List.sum_cons, if_true] at h ⊢
      omega
    · have h := placing_memory z capacity headers memory rest
      simp only [placedBytes, List.map_cons, List.sum_cons, Bool.false_eq_true, if_false] at h ⊢
      omega

/-- The rows an offer stages. -/
def stagedRows (staged : List StagedPart) : Table (Nat × Nat) StagedPart :=
  staged.map fun p => ((p.part.unit, p.part.part), p)

theorem foldl_set_rows (t : Table (Nat × Nat) StagedPart) (staged : List StagedPart) :
    staged.foldl (fun t p => t.set (p.part.unit, p.part.part) p) t = t.setAll (stagedRows staged) := by
  simp [Table.setAll, stagedRows, List.foldl_map]

/-- The plan an offer leaves. -/
def staging (p : SpooledPlan) (staged : List StagedPart) : SpooledPlan :=
  { p with parts := (p.parts.setAll (stagedRows staged)).insertionSort partLe }

theorem staging_payload (p : SpooledPlan) (staged : List StagedPart) :
    (staging p staged).payload z ≤ p.payload z + (staged.map fun s => z.part s.part).sum := by
  have h : (staging p staged).payload z = Table.total (fun e => z.part e.2.part) (p.parts.setAll (stagedRows staged)) :=
    Table.total_perm _ (List.perm_insertionSort _ _)
  rw [h]
  refine (Table.total_setAll_le _ _ _).trans (le_of_eq ?_)
  simp [SpooledPlan.payload, stagedRows, Table.total, Function.comp_def]

theorem staging_inMemory (p : SpooledPlan) (staged : List StagedPart) :
    (staging p staged).inMemory z ≤ p.inMemory z + placedBytes z staged := by
  have h : (staging p staged).inMemory z =
      Table.total (fun e => if e.2.memory then z.part e.2.part else 0) (p.parts.setAll (stagedRows staged)) :=
    Table.total_perm _ (List.perm_insertionSort _ _)
  rw [h]
  refine (Table.total_setAll_le _ _ _).trans (le_of_eq ?_)
  simp [SpooledPlan.inMemory, stagedRows, placedBytes, Table.total, Function.comp_def]

theorem insert_plans (q : SpooledQueue) (header : DeliveryHeader) (staged : List StagedPart) :
    (q.insert header staged).plans.Perm
      (q.plans.set header.planId (staging ((q.plans.get header.planId).getD { header }) staged)) := by
  simp only [insert, foldl_set_rows]
  exact List.perm_insertionSort _ _

/-- The offered plan itself never makes way. -/
theorem planId_not_candidate {header : DeliveryHeader} (hn : (q.plans.map (·.1)).Nodup)
    (hs : (q.plans.get header.planId).any (·.header ≠ header) = false) : header.planId ∉ q.contents.candidates header ∨
      q.plans.get header.planId = none := by
  cases hg : q.plans.get header.planId with
  | none => exact .inr rfl
  | some p =>
    refine .inl fun hc => ?_
    obtain ⟨p', hp', -, -, -, after, future, ha, hf, hlt⟩ := q.mem_candidates hc
    have he : p.header = header := by simpa [hg] using hs
    have hpp : some p' = some p := (Table.get_of_mem hn hp').symm.trans hg
    cases hpp
    rw [he, ha] at hf
    cases hf
    exact lt_irrefl _ hlt

theorem get_evicted {header : DeliveryHeader} {parts : List DeliveryPart} (hn : (q.plans.map (·.1)).Nodup)
    (hs : (q.plans.get header.planId).any (·.header ≠ header) = false) :
    (q.evicted z header parts).plans.get header.planId = q.plans.get header.planId := by
  rcases planId_not_candidate hn hs with hc | hg
  · cases hg : q.plans.get header.planId with
    | none =>
      rcases get_evict z (q.metadataNew z header) (q.extra z header parts) header.planId
        (q.contents.candidates header) q with h | h
      · exact h.trans hg
      · exact h
    | some p =>
      refine Table.get_of_mem ((shrinks_evicted (z := z) q header parts).ids.nodup hn) ?_
      exact mem_evict _ _ _ _ (Table.mem_of_get hg) hc
  · rcases get_evict z (q.metadataNew z header) (q.extra z header parts) header.planId
      (q.contents.candidates header) q with h | h
    · exact h
    · exact h.trans hg.symm

/-- The plan an accepted offer is staged under: the one the queue had, its parts moved at most. -/
theorem Accepted.plan {header : DeliveryHeader} {parts : List DeliveryPart} {active : RequestContext} {now : Nat}
    (hn : (q.plans.map (·.1)).Nodup) (h : q.Accepted z disk header parts active now q') :
    (h.spilled.2.plans.get header.planId).map SpooledPlan.contents = (q.plans.get header.planId).map SpooledPlan.contents := by
  rw [h.spill, get_spill_contents, get_evicted hn h.passes.same]

/-- The staged parts were counted when room was made. -/
theorem Accepted.extra {header : DeliveryHeader} {parts : List DeliveryPart} {active : RequestContext} {now : Nat}
    (hn : (q.plans.map (·.1)).Nodup) (h : q.Accepted z disk header parts active now q') :
    (h.staged.map fun s => z.part s.part).sum ≤ q.extra z header parts := by
  obtain ⟨hstaged, -⟩ := (placed_ok z disk).1 h.placed
  have hparts : h.staged.map (fun s => z.part s.part) = (h.spilled.2.missing header parts).map z.part := by
    have hp := placing_parts z h.spilled.2.capacity ((q.evicted z header parts).metadata z + q.metadataNew z header)
      h.spilled.1.used (h.spilled.2.missing header parts)
    rw [← hstaged] at hp
    rw [← hp, List.map_map]
    rfl
  rw [hparts]
  refine ((List.monotone_filter_right parts fun p hp => ?_).map z.part).sum_le_sum fun _ _ => Nat.zero_le _
  have hplan := h.plan hn
  cases hg : h.spilled.2.plans.get header.planId with
  | none =>
    rw [hg, Option.map_none] at hplan
    simp [Option.map_eq_none_iff.1 hplan.symm]
  | some e =>
    rw [hg, Option.map_some] at hplan
    obtain ⟨e', he', hc⟩ := Option.map_eq_some_iff.1 hplan.symm
    simp only [hg, Option.any_some, Bool.not_eq_true', Bool.or_eq_false_iff, Option.isSome_eq_false_iff,
      Option.isNone_iff_eq_none] at hp
    have hk : e'.contents.parts.get (p.unit, p.part) = e.contents.parts.get (p.unit, p.part) := by rw [hc]
    rw [get_parts_contents, get_parts_contents, hp.2, Option.map_none] at hk
    simp [he', Option.map_eq_none_iff.1 hk]

section
variable (q : SpooledQueue) (header : DeliveryHeader) (staged : List StagedPart)

theorem insert_length : (q.insert header staged).plans.length =
    q.plans.length + if (q.plans.get header.planId).isNone then 1 else 0 := by
  rw [(insert_plans q header staged).length_eq, Table.length_set]

theorem insert_payload : (q.insert header staged).payload z ≤ q.payload z + (staged.map fun s => z.part s.part).sum := by
  unfold payload
  rw [Table.total_perm _ (insert_plans q header staged)]
  exact Table.total_set_add (v := { header }) _ (staging_payload _ _) rfl

theorem insert_inMemory : (q.insert header staged).inMemory z ≤ q.inMemory z + placedBytes z staged := by
  unfold inMemory
  rw [Table.total_perm _ (insert_plans q header staged)]
  exact Table.total_set_add (v := { header }) _ (staging_inMemory _ _) rfl

theorem insert_metadata : (q.insert header staged).metadata z = q.metadata z + q.metadataNew z header := by
  unfold metadata metadataNew
  rw [Table.total_perm _ (insert_plans q header staged)]
  cases hg : q.plans.get header.planId with
  | none => exact Table.total_set_new _ hg _
  | some p =>
    have h := Table.total_set (fun e : String × SpooledPlan => z.header e.2.header) hg (staging p staged)
    simp only [Option.getD_some, Option.isNone_some, Bool.false_eq_true, if_false, Nat.add_zero]
    exact Nat.add_right_cancel h

end

theorem metadataNew_of_contents {header : DeliveryHeader} (h : (q'.plans.get header.planId).map SpooledPlan.contents =
    (q.plans.get header.planId).map SpooledPlan.contents) : q'.metadataNew z header = q.metadataNew z header := by
  have hi := congrArg Option.isNone h
  simp only [Option.isNone_map] at hi
  simp only [metadataNew, hi]

theorem Accepted.bounded {header : DeliveryHeader} {parts : List DeliveryPart} {active : RequestContext} {now : Nat}
    (hb : Bounded z q) (h : q.Accepted z disk header parts active now q') : Bounded z q' := by
  have hk : Shrinks z q h.spilled.2 := h.spill ▸ (shrinks_evicted q header parts).trans (shrinks_spill _ _)
  have hlim := (shrinks_evicted (z := z) q header parts).limits
  have hroom := h.room
  simp only [fits, Bool.and_eq_true, decide_eq_true_eq, hlim.capacity, hlim.payloadLimit] at hroom
  have hmeta : h.spilled.2.metadata z = (q.evicted z header parts).metadata z := by
    rw [h.spill]
    exact metadata_of_contents (spill_contents _)
  have hpay : h.spilled.2.payload z = (q.evicted z header parts).payload z := by
    rw [h.spill]
    exact payload_of_contents (spill_contents _)
  have hplan := h.plan hb.nodup
  rw [h.result]
  refine ⟨?_, ?_, ?_, ?_⟩
  · have hperm := (insert_plans h.spilled.2 header h.staged).map Prod.fst
    exact hperm.nodup_iff.2 (Table.nodup_set (hk.ids.nodup hb.nodup) _ _)
  · -- a new plan found a free slot
    have hslots : (h.spilled.2.insert header h.staged).slots = q.slots := hk.limits.slots
    have hi := congrArg Option.isNone hplan
    simp only [Option.isNone_map] at hi
    have hslot := h.passes.slot
    have hlen := hk.ids.length_le
    have hold := hb.plans
    simp only [List.length_map] at hlen
    rw [insert_length, hslots, hi]
    split
    · rename_i hnone
      simp only [hnone, Bool.true_and, full, Bool.or_eq_false_iff, decide_eq_false_iff_not, not_le] at hslot
      omega
    · omega
  · have hlimit : (h.spilled.2.insert header h.staged).payloadLimit = q.payloadLimit := hk.limits.payloadLimit
    have h1 := insert_payload (z := z) h.spilled.2 header h.staged
    have h2 := h.extra hb.nodup
    omega
  · have hcap : (h.spilled.2.insert header h.staged).capacity = q.capacity := hk.limits.capacity
    have h1 := insert_metadata (z := z) h.spilled.2 header h.staged
    have h2 := insert_inMemory (z := z) h.spilled.2 header h.staged
    rw [metadataNew_of_contents hplan] at h1
    have hmem := h.moved
    rw [h.spill] at hmem
    obtain ⟨hused, hbudget⟩ := spill_inMemory hmem
    rw [← h.spill] at hused hbudget
    rw [hlim.capacity] at hbudget
    have hplaced : placedBytes z h.staged = 0 ∨ h.spilled.1.used + placedBytes z h.staged +
        ((q.evicted z header parts).metadata z + q.metadataNew z header) ≤ h.spilled.2.capacity / 2 := by
      rw [((placed_ok z disk).1 h.placed).1]
      exact placing_memory z _ _ _ _
    rw [hk.limits.capacity] at hplaced
    omega

/-! ## Runs -/

/-- An offer is accepted, or adds nothing. -/
theorem receiveBounded_outcome (q : SpooledQueue) (header : DeliveryHeader) (parts : List DeliveryPart)
    (active : RequestContext) (now : Nat) (speculative : Bool) :
    Nonempty (q.Accepted z disk header parts active now (q.receiveBounded z disk header parts active now speculative).1) ∨
      Shrinks z q (q.receiveBounded z disk header parts active now speculative).1 := by
  by_cases hok : (q.receiveBounded z disk header parts active now speculative).2 = .ok true
  · exact .inl (q.receiveBounded_accepted z disk hok)
  · refine .inr ?_
    rcases q.receiveBounded_refused z disk hok with h | h | ⟨hstage, h⟩
    · rw [h]
      exact .refl q
    · rw [h]
      exact shrinks_evicted q header parts
    · rw [h]
      exact (shrinks_evicted q header parts).trans (stageOffer_shrinks hstage)

theorem Accepted.limits {header : DeliveryHeader} {parts : List DeliveryPart} {active : RequestContext} {now : Nat}
    (h : q.Accepted z disk header parts active now q') : SameLimits q q' := by
  have hk : Shrinks z q h.spilled.2 := h.spill ▸ (shrinks_evicted q header parts).trans (shrinks_spill _ _)
  rw [h.result]
  exact ⟨hk.limits.capacity, hk.limits.slots, hk.limits.payloadLimit⟩

/-- An offer, whatever comes of it, keeps the limits. -/
theorem receiveBounded_bounded (hb : Bounded z q) (header : DeliveryHeader) (parts : List DeliveryPart)
    (active : RequestContext) (now : Nat) (speculative : Bool) :
    Bounded z (q.receiveBounded z disk header parts active now speculative).1 := by
  rcases receiveBounded_outcome (z := z) q header parts active now speculative with ⟨⟨h⟩⟩ | h
  · exact h.bounded hb
  · exact hb.shrinks h

theorem receiveOwned_bounded (hb : Bounded z q) (P : Platform) (request : MaterializationRequest)
    (response : MaterializationResponse) (active : RequestContext) (now : Nat) :
    Bounded z (q.receiveOwned z disk P request response active now).1 := by
  have hr : Bounded z (q.receive z disk response.delivery.header response.delivery.parts active now).1 :=
    receiveBounded_bounded hb ..
  unfold receiveOwned
  simp only
  split
  · exact hb
  · split
    · rename_i h
      rwa [h] at hr
    · rename_i h
      rw [h] at hr
      split
      · exact hr
      · exact hr.shrinks (shrinks_adjust (f := fun p =>
          { p with owner := some request, ownerKeys := request.keys.map (·.syncText P) }) _ _ (fun _ => rfl)
          fun _ => List.Sublist.refl _)

end

/-- What may be done to a queue. -/
inductive Action where
  | receive (disk : Disk) (header : DeliveryHeader) (parts : List DeliveryPart) (active : RequestContext) (now : Nat)
  | receivePrefetched (disk : Disk) (header : DeliveryHeader) (parts : List DeliveryPart) (active : RequestContext)
      (now : Nat)
  | receiveOwned (disk : Disk) (P : Platform) (request : MaterializationRequest) (response : MaterializationResponse)
      (active : RequestContext) (now : Nat)
  | expire (now : Nat)
  | retryBlocked
  | apply (E : Engine) (now : Nat) (s : Store)

/-- The header an action offers. -/
def Action.offers : Action → Option DeliveryHeader
  | .receive _ header _ _ _ => some header
  | .receivePrefetched _ header _ _ _ => some header
  | .receiveOwned _ _ _ response _ _ => some response.delivery.header
  | _ => none

section
variable (z : Sizes)

def act (q : SpooledQueue) : Action → SpooledQueue
  | .receive disk header parts active now => (q.receive z disk header parts active now).1
  | .receivePrefetched disk header parts active now => (q.receivePrefetched z disk header parts active now).1
  | .receiveOwned disk P request response active now => (q.receiveOwned z disk P request response active now).1
  | .expire now => q.expire now
  | .retryBlocked => q.retryBlocked
  | .apply E now s => (q.applyNext E now s).1

def run (q : SpooledQueue) (actions : List Action) : SpooledQueue := actions.foldl (act z) q

variable {z} {q q' : SpooledQueue}

theorem act_bounded (hb : Bounded z q) (a : Action) : Bounded z (q.act z a) := by
  cases a with
  | receive disk header parts active now => exact receiveBounded_bounded hb ..
  | receivePrefetched disk header parts active now => exact receiveBounded_bounded hb ..
  | receiveOwned disk P request response active now => exact receiveOwned_bounded hb ..
  | expire now => exact hb.shrinks (shrinks_expire q now)
  | retryBlocked => exact hb.shrinks (shrinks_retryBlocked q)
  | apply E now s => exact hb.shrinks (shrinks_applyNext q E now s)

theorem run_bounded (hb : Bounded z q) (actions : List Action) : Bounded z (q.run z actions) := by
  induction actions generalizing q with
  | nil => exact hb
  | cons a actions ih => exact ih (act_bounded hb a)

theorem act_limits (q : SpooledQueue) (a : Action) : SameLimits q (q.act z a) := by
  have hr : ∀ (disk : Disk) (header : DeliveryHeader) (parts : List DeliveryPart) (active : RequestContext) (now : Nat)
      (speculative : Bool), SameLimits q (q.receiveBounded z disk header parts active now speculative).1 := by
    intro disk header parts active now speculative
    rcases receiveBounded_outcome (z := z) q header parts active now speculative with ⟨⟨h⟩⟩ | h
    · exact h.limits
    · exact h.limits
  cases a with
  | receive disk header parts active now => exact hr ..
  | receivePrefetched disk header parts active now => exact hr ..
  | receiveOwned disk P request response active now =>
    have h := hr disk response.delivery.header response.delivery.parts active now false
    simp only [act, receiveOwned]
    split
    · exact ⟨rfl, rfl, rfl⟩
    · split
      · rename_i hq
        change SameLimits q (q.receive z disk response.delivery.header response.delivery.parts active now).1 at h
        rwa [hq] at h
      · rename_i hq
        change SameLimits q (q.receive z disk response.delivery.header response.delivery.parts active now).1 at h
        rw [hq] at h
        split
        · exact h
        · exact ⟨h.capacity, h.slots, h.payloadLimit⟩
  | expire now => exact ⟨rfl, rfl, rfl⟩
  | retryBlocked => exact ⟨rfl, rfl, rfl⟩
  | apply E now s => exact (shrinks_applyNext (z := z) q E now s).limits

theorem run_limits (q : SpooledQueue) (actions : List Action) : SameLimits q (q.run z actions) := by
  induction actions generalizing q with
  | nil => exact ⟨rfl, rfl, rfl⟩
  | cons a actions ih =>
    have h1 := act_limits (z := z) q a
    have h2 := ih (q.act z a)
    exact ⟨h2.capacity.trans h1.capacity, h2.slots.trans h1.slots, h2.payloadLimit.trans h1.payloadLimit⟩

/-! ### What an offer may displace -/

/-- The plan is still there, as far as it was. -/
def Stays (q' : SpooledQueue) (e : String × SpooledPlan) : Prop :=
  ∃ p, (e.1, p) ∈ q'.plans ∧ p.header = e.2.header ∧ p.next = e.2.next

theorem stays_of_contents (h : q'.contents = q.contents) {e : String × SpooledPlan} (he : e ∈ q.plans) : Stays q' e := by
  have hm : (e.1, e.2.contents) ∈ q'.contents := by
    rw [h]
    exact List.mem_map.2 ⟨e, he, rfl⟩
  obtain ⟨e', he', hc⟩ := List.mem_map.1 hm
  simp only [Prod.mk.injEq] at hc
  have h1 : e'.2.contents.header = e.2.contents.header := by rw [hc.2]
  have h2 : e'.2.contents.next = e.2.contents.next := by rw [hc.2]
  exact ⟨e'.2, by rw [← hc.1]; exact he', h1, h2⟩

theorem stays_insert (header : DeliveryHeader) (staged : List StagedPart) (hn : (q.plans.map (·.1)).Nodup)
    {e : String × SpooledPlan} (he : e ∈ q.plans) : Stays (q.insert header staged) e := by
  have hg : q.plans.get e.1 = some e.2 := Table.get_of_mem hn he
  by_cases hid : header.planId = e.1
  · have h := get_insert q header staged
    rw [hid, hg, Option.getD_some] at h
    exact ⟨_, Table.mem_of_get h, rfl, rfl⟩
  · refine ⟨e.2, (insert_plans q header staged).mem_iff.2 ?_, rfl, rfl⟩
    exact Table.mem_of_get (by rw [Table.get_set_ne _ _ hid]; exact hg)

/-- A plan that starts no later than an offer stays. -/
theorem receiveBounded_stays {disk : Disk} {header : DeliveryHeader} {parts : List DeliveryPart} {active : RequestContext}
    {now : Nat} {speculative : Bool} (hn : (q.plans.map (·.1)).Nodup) {e : String × SpooledPlan} (he : e ∈ q.plans)
    (hlater : ∀ after a, header.after = some after → e.2.header.after = some a → a ≤ after) :
    Stays (q.receiveBounded z disk header parts active now speculative).1 e := by
  have hc : e.1 ∉ q.contents.candidates header := by
    intro hc
    obtain ⟨p, hp, -, -, -, after, future, ha, hf, hlt⟩ := q.mem_candidates hc
    have hpe : some p = some e.2 := (Table.get_of_mem hn hp).symm.trans (Table.get_of_mem hn he)
    cases hpe
    exact absurd hlt (not_lt.2 (hlater after future ha hf))
  have hev : e ∈ (q.evicted z header parts).plans := mem_evict _ _ _ _ he hc
  by_cases hok : (q.receiveBounded z disk header parts active now speculative).2 = .ok true
  · obtain ⟨h⟩ := q.receiveBounded_accepted z disk hok
    have hspill : h.spilled.2.contents = (q.evicted z header parts).contents := by
      rw [h.spill]
      exact spill_contents _
    obtain ⟨p, hp, hh, hx⟩ := stays_of_contents hspill hev
    have hnodup : (h.spilled.2.plans.map (·.1)).Nodup := by
      rw [h.spill]
      exact (shrinks_spill (z := z) _ _).ids.nodup ((shrinks_evicted (z := z) q header parts).ids.nodup hn)
    obtain ⟨p', hp', hh', hx'⟩ := stays_insert header h.staged hnodup hp
    rw [h.result]
    exact ⟨p', hp', hh'.trans hh, hx'.trans hx⟩
  · rcases q.receiveBounded_refused z disk hok with h | h | ⟨hstage, h⟩
    · rw [h]
      exact ⟨e.2, he, rfl, rfl⟩
    · rw [h]
      exact ⟨e.2, hev, rfl, rfl⟩
    · rw [h]
      exact stays_of_contents (stageOffer_refused z disk _ hstage).1 hev

theorem act_stays (hn : (q.plans.map (·.1)).Nodup) {a : Action} {header : DeliveryHeader} (ha : a.offers = some header)
    {e : String × SpooledPlan} (he : e ∈ q.plans)
    (hlater : ∀ after x, header.after = some after → e.2.header.after = some x → x ≤ after) : Stays (q.act z a) e := by
  cases a with
  | receive disk h parts active now =>
    cases ha
    exact receiveBounded_stays hn he hlater
  | receivePrefetched disk h parts active now =>
    cases ha
    exact receiveBounded_stays hn he hlater
  | receiveOwned disk P request response active now =>
    cases ha
    have hr : Stays (q.receive z disk response.delivery.header response.delivery.parts active now).1 e :=
      receiveBounded_stays hn he hlater
    simp only [act, receiveOwned]
    split
    · exact ⟨e.2, he, rfl, rfl⟩
    · split
      · rename_i hq
        rwa [hq] at hr
      · rename_i hq
        rw [hq] at hr
        split
        · exact hr
        · obtain ⟨p, hp, hh, hx⟩ := hr
          by_cases hid : e.1 = response.delivery.header.planId
          · exact ⟨_, List.mem_map.2 ⟨(e.1, p), hp, if_pos hid⟩, hh, hx⟩
          · exact ⟨p, List.mem_map.2 ⟨(e.1, p), hp, if_neg hid⟩, hh, hx⟩
  | expire now => cases ha
  | retryBlocked => cases ha
  | apply E now s => cases ha

/-- Every reachable queue is within its limits, and no offer displaces a plan that starts no later than it. -/
theorem reachable_within_limits (z : Sizes) (capacity slots payloadLimit : Nat) (actions : List Action) :
    let q := (withLimits capacity slots payloadLimit).run z actions
    q.plans.length ≤ max slots 2 ∧ q.metadata z ≤ capacity ∧ q.payload z ≤ payloadLimit ∧
      q.metadata z + q.inMemory z ≤ capacity ∧
      ∀ (a : Action) (header : DeliveryHeader), a.offers = some header → ∀ e ∈ q.plans,
        (∀ after x, header.after = some after → e.2.header.after = some x → x ≤ after) → Stays (q.act z a) e := by
  intro q
  have hstart : Bounded z (withLimits capacity slots payloadLimit) :=
    ⟨List.nodup_nil, Nat.zero_le _, Nat.zero_le _, Nat.zero_le _⟩
  have hb : Bounded z q := run_bounded hstart actions
  have hl : SameLimits (withLimits capacity slots payloadLimit) q := run_limits _ actions
  have h1 : q.plans.length ≤ max slots 2 := hb.plans.trans hl.slots.le
  have h2 : q.payload z ≤ payloadLimit := hb.payload.trans hl.payloadLimit.le
  have h3 : q.metadata z + q.inMemory z ≤ capacity := hb.memory.trans hl.capacity.le
  exact ⟨h1, by omega, h2, h3, fun a header ha e he hlater => act_stays hb.nodup ha he hlater⟩

end

end SpooledQueue

end Axton
