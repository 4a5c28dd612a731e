import Axton.Client.Delivery

/-!
# Bounded staging

Model of `DeliveryQueue` (delivery_queue.rs:160-458): offers are validated, bounded by slots, manifest
bytes and payload bytes, and staged by plan. Later offers of a lane make room for an earlier one; a
speculative offer never displaces anything.

The byte lengths of the JSON texts are a parameter (`Sizes`). Whether a part is kept in memory or spilled
to an anonymous file is not modelled, so staging itself does not fail.
-/

namespace Axton

/-- Byte lengths of the JSON texts of headers and parts. -/
structure Sizes where
  header : DeliveryHeader → Nat
  part : DeliveryPart → Nat

namespace DeliveryQueue

/-- The limits of `DeliveryQueue::new(16 * 1024 * 1024, 32)`. -/
def capacity : Nat := 16 * 1024 * 1024
def slots : Nat := 32
def payloadLimit : Nat := 256 * 1024 * 1024

/-- `validate_offer` (delivery_queue.rs:361). -/
def validateOffer (header : DeliveryHeader) (parts : List DeliveryPart) (active : RequestContext) (now : Nat) :
    Except String Unit := do
  check (header.context.storeId = active.storeId && header.context.stream = active.stream) "foreign Store delivery"
  header.admitContext active
  check (now < header.expiresAt) "delivery.expired"
  parts.forM fun p => do
    p.validate
    check (p.planId = header.planId && p.planDigest = header.digest && header.names p)
      "fragment correlation mismatch"
    check (p.changes.all fun c => decide (c.cursor ≤ header.observedHead) && header.after.all (· < c.cursor))
      "fragment outside plan"

/-- Ordinary plans of the offer's lane. -/
def lane (q : DeliveryQueue) (bootstrap : Bool) : List (String × Plan) :=
  q.filter fun e => e.2.header.owner.isNone && e.2.header.bootstrap = bootstrap

/-- No slot for a new plan; the last one is kept for an offer before every staged one of its lane
(delivery_queue.rs:219-226). -/
def full (q : DeliveryQueue) (header : DeliveryHeader) : Bool :=
  let earliest := ((q.lane header.bootstrap).filterMap fun e => e.2.header.after).min?
  let repair := header.after.any fun a => earliest.all (a < ·)
  slots ≤ q.length || (!repair && slots - 1 ≤ q.length)

def metadata (z : Sizes) (q : DeliveryQueue) : Nat := (q.map fun e => z.header e.2.header).sum

def payload (z : Sizes) (q : DeliveryQueue) : Nat := (q.map fun e => (e.2.parts.map fun p => z.part p.2).sum).sum

def fits (z : Sizes) (metadataNew extra : Nat) (q : DeliveryQueue) : Bool :=
  q.metadata z + metadataNew ≤ capacity && q.payload z + extra ≤ payloadLimit

/-- Later offers of the lane, the latest first (delivery_queue.rs:246-261). -/
def candidates (q : DeliveryQueue) (header : DeliveryHeader) : List String :=
  let later := q.filterMap fun e => match header.after, e.2.header.after with
    | some after, some future =>
      if header.owner.isNone ∧ e.2.header.owner.isNone ∧ header.bootstrap = e.2.header.bootstrap ∧ after < future then
        some (future, e.1)
      else none
    | _, _ => none
  (later.insertionSort fun a b => b.1 < a.1 ∨ (b.1 = a.1 ∧ b.2 ≤ a.2)).map (·.2)

/-- The eviction loop (delivery_queue.rs:280-288). -/
def evict (z : Sizes) (metadataNew extra : Nat) : List String → DeliveryQueue → DeliveryQueue
  | [], q => q
  | id :: rest, q => if q.fits z metadataNew extra then q else evict z metadataNew extra rest (Table.erase q id)

/-- Stage the parts a plan does not have yet (delivery_queue.rs:319-356). -/
def stage (q : DeliveryQueue) (header : DeliveryHeader) (parts : List DeliveryPart) : DeliveryQueue :=
  let existing := Table.get q header.planId
  let plan := existing.getD ⟨header, [], 0, false, none⟩
  let staged := parts.filter fun p =>
    !existing.any fun e => decide (p.unit < e.next) || (e.parts.get (p.unit, p.part)).isSome
  let plan := { plan with parts := staged.foldl (fun t p => t.set (p.unit, p.part) p) plan.parts }
  (Table.set q header.planId plan).insertionSort (·.1 ≤ ·.1)

/-- Make room for the new bytes and stage (delivery_queue.rs:272-357). -/
def place (z : Sizes) (q : DeliveryQueue) (header : DeliveryHeader) (parts : List DeliveryPart)
    (metadataNew extra : Nat) (speculative : Bool) : DeliveryQueue × Except String Bool :=
  if speculative && !q.fits z metadataNew extra then (q, .ok false)
  else
    let kept := evict z metadataNew extra (q.candidates header) q
    if capacity < kept.metadata z + metadataNew then (kept, .error "delivery manifest capacity exceeded")
    else if payloadLimit < kept.payload z + extra then (kept, .error "delivery disk staging capacity exceeded")
    else (kept.stage header parts, .ok true)

/-- `receive_bounded` (delivery_queue.rs:200). A refused offer may still have displaced later ones. -/
def receiveBounded (z : Sizes) (q : DeliveryQueue) (header : DeliveryHeader) (parts : List DeliveryPart)
    (active : RequestContext) (now : Nat) (speculative : Bool) : DeliveryQueue × Except String Bool :=
  match validateOffer header parts active now with
  | .error e => (q, .error e)
  | .ok _ =>
    let existing := Table.get q header.planId
    if existing.any (·.header ≠ header) then (q, .error "changed immutable plan")
    else if existing.isNone && q.full header then
      (q, if speculative then .ok false else .error "delivery queue overflow")
    else
      let missing := parts.filter fun p => (existing.bind fun e => e.parts.get (p.unit, p.part)).isNone
      q.place z header parts (if existing.isNone then z.header header else 0) (missing.map z.part).sum speculative

/-- Change the plan of an id (`plans.get_mut`). -/
def adjust (q : DeliveryQueue) (id : String) (f : Plan → Plan) : DeliveryQueue :=
  q.map fun e => if e.1 = id then (e.1, f e.2) else e

/-- `receive_owned` (delivery_queue.rs:394). -/
def receiveOwned (P : Platform) (z : Sizes) (q : DeliveryQueue) (request : MaterializationRequest)
    (response : MaterializationResponse) (active : RequestContext) (now : Nat) : DeliveryQueue × Except String Unit :=
  let header := response.delivery.header
  let admission : Except String Unit := match (Table.get q header.planId).bind (·.owner) with
    | some original => do
      request.validate
      check (original = request && response.requestId = request.requestId) "changed materialization owner"
      check (request.owns P response.delivery) "unowned materialization key"
    | none => response.admitOwned P request active
  match admission with
  | .error e => (q, .error e)
  | .ok _ => match q.receiveBounded z header response.delivery.parts active now false with
    | (q', .error e) => (q', .error e)
    | (q', .ok _) => match (Table.get q' header.planId).bind (·.owner) with
      | some original => (q', if original = request then .ok () else .error "changed materialization owner")
      | none => (q'.adjust header.planId fun p => { p with owner := some request }, .ok ())

/-- `expire` (delivery_queue.rs:444). -/
def expire (q : DeliveryQueue) (now : Nat) : DeliveryQueue := q.filter fun e => decide (now < e.2.header.expiresAt)

/-- `retry_blocked` (delivery_queue.rs:447). -/
def retryBlocked (q : DeliveryQueue) : DeliveryQueue := q.map fun e => (e.1, { e.2 with blocked := false })

/-! ## What staging changes -/

/-- Every plan of `q'` was in `q`, with the same header, position and block, or is a new plan under a valid
header. -/
def Grows (q q' : DeliveryQueue) : Prop :=
  ∀ e ∈ q', (∃ p, (e.1, p) ∈ q ∧ e.2.header = p.header ∧ e.2.next = p.next ∧ e.2.blocked = p.blocked) ∨
    (e.2.header.validate = .ok () ∧ e.2.next = 0 ∧ e.2.blocked = false)

namespace Grows

theorem of_subset {q q' : DeliveryQueue} (h : ∀ e ∈ q', e ∈ q) : Grows q q' :=
  fun e he => .inl ⟨e.2, h e he, rfl, rfl, rfl⟩

theorem refl (q : DeliveryQueue) : Grows q q := of_subset fun _ h => h

theorem trans {a b c : DeliveryQueue} (h : Grows a b) (h' : Grows b c) : Grows a c := by
  intro e he
  rcases h' e he with ⟨p, hp, hh, hn, hb⟩ | hnew
  · rcases h (e.1, p) hp with ⟨p', hp', hh', hn', hb'⟩ | ⟨hv, hn', hb'⟩
    · exact .inl ⟨p', hp', hh.trans hh', hn.trans hn', hb.trans hb'⟩
    · exact .inr ⟨by rw [hh]; exact hv, hn.trans hn', hb.trans hb'⟩
  · exact .inr hnew

end Grows

theorem evict_sublist (z : Sizes) (m x : Nat) : ∀ (ids : List String) (q : DeliveryQueue),
    (evict z m x ids q).Sublist q
  | [], q => List.Sublist.refl q
  | id :: rest, q => by
    unfold evict
    split
    · exact List.Sublist.refl q
    · exact (evict_sublist z m x rest _).trans List.filter_sublist

theorem stage_grows {q : DeliveryQueue} {header : DeliveryHeader} {parts : List DeliveryPart}
    (hv : header.validate = .ok ()) : Grows q (q.stage header parts) := by
  intro e he
  simp only [stage, List.mem_insertionSort] at he
  rcases Table.mem_set he with rfl | he
  · cases hg : Table.get q header.planId with
    | none => exact .inr ⟨by simpa using hv, rfl, rfl⟩
    | some p => exact .inl ⟨p, Table.mem_of_get hg, rfl, rfl, rfl⟩
  · exact .inl ⟨e.2, he, rfl, rfl, rfl⟩

theorem validateOffer_valid {header : DeliveryHeader} {parts : List DeliveryPart} {active : RequestContext} {now : Nat}
    {u : Unit} (h : validateOffer header parts active now = .ok u) : header.validate = .ok () := by
  simp only [validateOffer, DeliveryHeader.admitContext, bind_ok] at h
  obtain ⟨_, _, _, ⟨_, hv, _⟩, _⟩ := h
  exact hv

theorem place_grows (z : Sizes) (q : DeliveryQueue) {header : DeliveryHeader} (parts : List DeliveryPart) (m x : Nat)
    (speculative : Bool) (hv : header.validate = .ok ()) : Grows q (q.place z header parts m x speculative).1 := by
  have evicted : Grows q (evict z m x (q.candidates header) q) :=
    .of_subset fun _ h => (evict_sublist z m x _ q).subset h
  unfold place
  simp only
  split
  · exact .refl q
  · split
    · exact evicted
    · split
      · exact evicted
      · exact evicted.trans (stage_grows hv)

theorem receiveBounded_grows (z : Sizes) (q : DeliveryQueue) (header : DeliveryHeader) (parts : List DeliveryPart)
    (active : RequestContext) (now : Nat) (speculative : Bool) :
    Grows q (q.receiveBounded z header parts active now speculative).1 := by
  unfold receiveBounded
  split
  · exact .refl q
  · rename_i hoffer
    simp only
    split
    · exact .refl q
    · split
      · exact .refl q
      · exact place_grows z q parts _ _ speculative (validateOffer_valid hoffer)

theorem adjust_owner_grows (q : DeliveryQueue) (id : String) (r : MaterializationRequest) :
    Grows q (q.adjust id fun p => { p with owner := some r }) := by
  intro e he
  obtain ⟨e', he', rfl⟩ := List.mem_map.1 he
  split
  · exact .inl ⟨e'.2, he', rfl, rfl, rfl⟩
  · exact .inl ⟨e'.2, he', rfl, rfl, rfl⟩

theorem receiveOwned_grows (P : Platform) (z : Sizes) (q : DeliveryQueue) (request : MaterializationRequest)
    (response : MaterializationResponse) (active : RequestContext) (now : Nat) :
    Grows q (q.receiveOwned P z request response active now).1 := by
  unfold receiveOwned
  simp only
  split
  · exact .refl q
  · have hb := receiveBounded_grows z q response.delivery.header response.delivery.parts active now false
    split
    · rename_i hq
      rw [hq] at hb
      exact hb
    · rename_i hq
      rw [hq] at hb
      split
      · exact hb
      · exact hb.trans (adjust_owner_grows _ _ _)

end DeliveryQueue

end Axton
