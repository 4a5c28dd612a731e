import Axton.Client.Staging
import Axton.Lib.Tally

/-!
# Staging in memory and on disk

Model of `DeliveryQueue` (delivery_queue.rs) with its limits, with the place of every staged part, and with
the files that a call may fail to write. `Client.Staging` is the same queue under the limits a client opens it
with, less the places.

| here | there |
|------|-------|
| `StagedPart.load` | `StagedPart::load` (delivery_queue.rs:16); what a file reads back is a parameter |
| `Disk` | the temporary files one call makes (`StagedPart::new`, delivery_queue.rs:45) |
| `SpooledQueue.spill` | the loop that moves parts to disk (delivery_queue.rs:303-317) |
| `SpooledQueue.placed` | the loop over the offered parts (delivery_queue.rs:321-342) |
| `SpooledQueue.receiveBounded`, `receiveOwned` | the methods of the same names |

`bytes` and `metadata_bytes` are the lengths of the JSON texts, given by `Sizes`.
-/

namespace Axton

structure StagedPart where
  part : DeliveryPart
  memory : Bool

def StagedPart.load (read : DeliveryPart → Except String DeliveryPart) (p : StagedPart) : Except String DeliveryPart :=
  if p.memory then .ok p.part else read p.part

/-- Whether the `n`th file of a call can be made and written. -/
abbrev Disk := Nat → Except String Unit

/-- A staged plan with the place of its parts. -/
structure SpooledPlan where
  header : DeliveryHeader
  parts : Table (Nat × Nat) StagedPart := []
  next : Nat := 0
  blocked : Bool := false
  owner : Option MaterializationRequest := none
  ownerKeys : List String := []

namespace SpooledPlan

/-- The plan, wherever its parts are. -/
def contents (p : SpooledPlan) : Plan where
  header := p.header
  parts := p.parts.map fun e => (e.1, e.2.part)
  next := p.next
  blocked := p.blocked
  owner := p.owner

/-- Bytes of the staged parts. -/
def payload (z : Sizes) (p : SpooledPlan) : Nat := p.parts.total fun e => z.part e.2.part

/-- Bytes of the parts held in memory. -/
def inMemory (z : Sizes) (p : SpooledPlan) : Nat := p.parts.total fun e => if e.2.memory then z.part e.2.part else 0

/-- One part of `Plan::unit`, its digest checked again (delivery_queue.rs:130-145). -/
def loadPart (read : DeliveryPart → Except String DeliveryPart) (p : SpooledPlan) (manifest : UnitManifest)
    (index part : Nat) : Except String (List AuthorityChange) :=
  match p.parts.get (index, part) with
  | none => .error "missing part"
  | some staged => do
    let d ← staged.load read
    match manifest.parts[d.part]? with
    | none => .error "disk staging part index"
    | some digest => if digest.matches d.body then .ok d.changes else .error "disk staging digest mismatch"

/-- `Plan::unit` (delivery_queue.rs:121). -/
def unit (read : DeliveryPart → Except String DeliveryPart) (p : SpooledPlan) (index : Nat) :
    Except String (Option DeliveryUnit) :=
  if !p.contents.complete index then .ok none
  else match p.header.units[index]? with
    | none => .ok none
    | some manifest => do
      let chunks ← (List.range manifest.parts.length).mapM (p.loadPart read manifest index)
      let u : DeliveryUnit := ⟨index, manifest.through, chunks.flatten⟩
      u.validate
      check (manifest.digest.matches u && minimumCursor u.changes = manifest.minimumCursor)
        "unit digest mismatch"
      return some u

/-- Forget the units before `next` (delta_applier.rs:172-174). -/
def advance (p : SpooledPlan) (next : Nat) : SpooledPlan :=
  { p with next, parts := p.parts.filter fun e => decide (next ≤ e.1.1) }

end SpooledPlan

/-- `DeliveryQueue` (delivery_queue.rs:160). -/
structure SpooledQueue where
  plans : Table String SpooledPlan := []
  capacity : Nat
  slots : Nat
  payloadLimit : Nat

/-- The loop that moves parts to disk: bytes still in memory, files written, and the error that ended it. -/
structure Spilling where
  used : Nat
  writes : Nat := 0
  failure : Option String := none

namespace Spilling

/-- One part (delivery_queue.rs:305-315). -/
def part (z : Sizes) (disk : Disk) (budget : Nat) (s : Spilling) (p : StagedPart) : Spilling × StagedPart :=
  if s.failure.isSome || decide (s.used ≤ budget) || !p.memory then (s, p)
  else match disk s.writes with
    | .error e => ({ s with failure := some ("delivery staging: " ++ e) }, p)
    | .ok _ => ({ s with used := s.used - z.part p.part, writes := s.writes + 1 }, { p with memory := false })

def entry (z : Sizes) (disk : Disk) (budget : Nat) (s : Spilling) (e : (Nat × Nat) × StagedPart) :
    Spilling × ((Nat × Nat) × StagedPart) :=
  ((s.part z disk budget e.2).1, (e.1, (s.part z disk budget e.2).2))

def plan (z : Sizes) (disk : Disk) (budget : Nat) (s : Spilling) (e : String × SpooledPlan) :
    Spilling × (String × SpooledPlan) :=
  ((walk (entry z disk budget) s e.2.parts).1, (e.1, { e.2 with parts := (walk (entry z disk budget) s e.2.parts).2 }))

end Spilling

namespace SpooledQueue

/-- `with_limits` (delivery_queue.rs:171). -/
def withLimits (capacity slots payloadLimit : Nat) : SpooledQueue where
  capacity := capacity
  slots := max slots 2
  payloadLimit := payloadLimit

section
variable (z : Sizes) (disk : Disk) (q : SpooledQueue)

/-- The queue, wherever its parts are. -/
def contents : DeliveryQueue := q.plans.map fun e => (e.1, e.2.contents)

def metadata : Nat := q.plans.total fun e => z.header e.2.header

def payload : Nat := q.plans.total fun e => e.2.payload z

def inMemory : Nat := q.plans.total fun e => e.2.inMemory z

/-- No slot for a new plan (delivery_queue.rs:218-232). -/
def full (header : DeliveryHeader) : Bool :=
  let earliest := ((q.contents.lane header.bootstrap).filterMap fun e => e.2.header.after).min?
  let repair := header.after.any fun a => earliest.all (a < ·)
  decide (q.slots ≤ q.plans.length) || (!repair && decide (q.slots - 1 ≤ q.plans.length))

def fits (metadataNew extra : Nat) : Bool :=
  decide (q.metadata z + metadataNew ≤ q.capacity) && decide (q.payload z + extra ≤ q.payloadLimit)

/-- The bytes of a new header. -/
def metadataNew (header : DeliveryHeader) : Nat := if (q.plans.get header.planId).isNone then z.header header else 0

/-- The bytes of the parts the plan does not have (delivery_queue.rs:235-240). -/
def extra (header : DeliveryHeader) (parts : List DeliveryPart) : Nat :=
  ((parts.filter fun p => ((q.plans.get header.planId).bind fun e => e.parts.get (p.unit, p.part)).isNone).map z.part).sum

/-- The eviction loop (delivery_queue.rs:280-288). -/
def evict (metadataNew extra : Nat) : List String → SpooledQueue → SpooledQueue
  | [], q => q
  | id :: rest, q =>
    if q.fits z metadataNew extra then q else evict metadataNew extra rest { q with plans := q.plans.erase id }

/-- Move parts to disk until the rest is within the budget (delivery_queue.rs:296-317). -/
def spill (budget : Nat) : Spilling × SpooledQueue :=
  let w := walk (Spilling.plan z disk budget) { used := q.inMemory z } q.plans
  (w.1, { q with plans := w.2 })

/-- Place the offered parts (delivery_queue.rs:321-342): in memory while they and the headers fit into half the
capacity, else on disk. -/
def placed (capacity headers : Nat) : Nat → Nat → List DeliveryPart → Except String (List StagedPart)
  | _, _, [] => .ok []
  | memory, writes, p :: rest =>
    if memory + z.part p + headers ≤ capacity / 2 then do
      return ⟨p, true⟩ :: (← placed capacity headers (memory + z.part p) writes rest)
    else match disk writes with
      | .error e => .error ("delivery staging: " ++ e)
      | .ok _ => do return ⟨p, false⟩ :: (← placed capacity headers memory (writes + 1) rest)

/-- The parts an offer adds to the plan: neither applied nor staged yet (delivery_queue.rs:322-326). -/
def missing (header : DeliveryHeader) (parts : List DeliveryPart) : List DeliveryPart :=
  parts.filter fun p => !(q.plans.get header.planId).any fun e =>
    decide (p.unit < e.next) || (e.parts.get (p.unit, p.part)).isSome

/-- Insert into a map kept in key order. -/
def partLe (a b : (Nat × Nat) × StagedPart) : Prop := a.1.1 < b.1.1 ∨ (a.1.1 = b.1.1 ∧ a.1.2 ≤ b.1.2)

instance : DecidableRel partLe := fun _ _ => inferInstanceAs (Decidable (_ ∨ _))

/-- Stage placed parts under their plan (delivery_queue.rs:343-356). -/
def insert (header : DeliveryHeader) (staged : List StagedPart) : SpooledQueue :=
  let plan := (q.plans.get header.planId).getD { header }
  let parts := staged.foldl (fun t p => t.set (p.part.unit, p.part.part) p) plan.parts
  { q with plans :=
      (q.plans.set header.planId { plan with parts := parts.insertionSort partLe }).insertionSort (·.1 ≤ ·.1) }

/-- Stage an offer that the limits admit (delivery_queue.rs:296-357). -/
def stageOffer (header : DeliveryHeader) (parts : List DeliveryPart) (metadataNew : Nat) :
    SpooledQueue × Except String Bool :=
  let headers := q.metadata z + metadataNew
  let (s, q) := q.spill z disk (q.capacity - headers)
  match s.failure with
  | some e => (q, .error e)
  | none => match placed z disk q.capacity headers s.used s.writes (q.missing header parts) with
    | .error e => (q, .error e)
    | .ok staged => (q.insert header staged, .ok true)

/-- Make room for the new bytes and stage (delivery_queue.rs:272-357). -/
def place (header : DeliveryHeader) (parts : List DeliveryPart) (metadataNew extra : Nat) (speculative : Bool) :
    SpooledQueue × Except String Bool :=
  if speculative && !q.fits z metadataNew extra then (q, .ok false)
  else
    let kept := evict z metadataNew extra (q.contents.candidates header) q
    if kept.capacity < kept.metadata z + metadataNew then (kept, .error "delivery manifest capacity exceeded")
    else if kept.payloadLimit < kept.payload z + extra then (kept, .error "delivery disk staging capacity exceeded")
    else kept.stageOffer z disk header parts metadataNew

/-- `receive_bounded` (delivery_queue.rs:200). -/
def receiveBounded (header : DeliveryHeader) (parts : List DeliveryPart) (active : RequestContext) (now : Nat)
    (speculative : Bool) : SpooledQueue × Except String Bool :=
  match DeliveryQueue.validateOffer header parts active now with
  | .error e => (q, .error e)
  | .ok _ =>
    if (q.plans.get header.planId).any (·.header ≠ header) then (q, .error "changed immutable plan")
    else if (q.plans.get header.planId).isNone && q.full header then
      (q, if speculative then .ok false else .error "delivery queue overflow")
    else q.place z disk header parts (q.metadataNew z header) (q.extra z header parts) speculative

/-- `receive` (delivery_queue.rs:179). -/
def receive (header : DeliveryHeader) (parts : List DeliveryPart) (active : RequestContext) (now : Nat) :
    SpooledQueue × Except String Unit :=
  ((q.receiveBounded z disk header parts active now false).1,
    (q.receiveBounded z disk header parts active now false).2.map fun _ => ())

/-- `receive_prefetched` (delivery_queue.rs:191). -/
def receivePrefetched (header : DeliveryHeader) (parts : List DeliveryPart) (active : RequestContext) (now : Nat) :
    SpooledQueue × Except String Bool :=
  q.receiveBounded z disk header parts active now true

/-- Change the plan of an id (`plans.get_mut`). -/
def adjust (id : String) (f : SpooledPlan → SpooledPlan) : SpooledQueue :=
  { q with plans := q.plans.map fun e => if e.1 = id then (e.1, f e.2) else e }

/-- Whether `receive_owned` hands an offer on (delivery_queue.rs:401-416). -/
def admitOwned (P : Platform) (request : MaterializationRequest) (response : MaterializationResponse)
    (active : RequestContext) : Except String Unit :=
  match q.plans.get response.delivery.header.planId with
  | some plan => match plan.owner with
    | some original => do
      request.validate
      check (original = request && response.requestId = request.requestId) "changed materialization owner"
      check ((response.delivery.parts.flatMap (·.changes)).all fun c =>
        plan.ownerKeys.contains (c.key.syncText P) || (request.models.get c.key.model).isSome)
        "unowned materialization key"
    | none => response.admitOwned P request active
  | none => response.admitOwned P request active

/-- `receive_owned` (delivery_queue.rs:394). -/
def receiveOwned (P : Platform) (request : MaterializationRequest) (response : MaterializationResponse)
    (active : RequestContext) (now : Nat) : SpooledQueue × Except String Unit :=
  let header := response.delivery.header
  match q.admitOwned P request response active with
  | .error e => (q, .error e)
  | .ok _ => match q.receive z disk header response.delivery.parts active now with
    | (q', .error e) => (q', .error e)
    | (q', .ok _) => match (q'.plans.get header.planId).bind (·.owner) with
      | some original => (q', if original = request then .ok () else .error "changed materialization owner")
      | none => (q'.adjust header.planId fun p =>
          { p with owner := some request, ownerKeys := request.keys.map (·.syncText P) }, .ok ())

/-- `expire` (delivery_queue.rs:444). -/
def expire (now : Nat) : SpooledQueue :=
  { q with plans := q.plans.filter fun e => decide (now < e.2.header.expiresAt) }

/-- `retry_blocked` (delivery_queue.rs:447). -/
def retryBlocked : SpooledQueue := { q with plans := q.plans.map fun e => (e.1, { e.2 with blocked := false }) }

/-! ## Applying -/

/-- The queue a selection sees (delta_applier.rs:32-48): expired and already covered plans are gone. -/
def live (now : Nat) (s : Store) : SpooledQueue :=
  { q.expire now with plans := (q.expire now).plans.filter fun e => !Engine.receipted s e.2.contents }

/-- A unit was applied (delta_applier.rs:168-177). -/
def applied (id : String) (next units : Nat) (active : List String) : SpooledQueue :=
  let q' := { q with plans := q.plans.filter fun e => decide (e.1 = id) || decide (e.2.next = 0) || active.contains e.1 }
  if units ≤ next then { q' with plans := q'.plans.erase id } else q'.adjust id (·.advance next)

/-- `apply_next_delivery05` (delta_applier.rs:26). -/
def applyNext (E : Engine) (now : Nat) (s : Store) : SpooledQueue × Store × Except String (Option ApplyReport) :=
  let live := q.live now s
  match Engine.choose now q.contents s with
  | .error e => (live, s, .error e)
  | .ok .wait => (live, s, .ok none)
  | .ok .cleanup => (live, Engine.expireProgress now s, .ok none)
  | .ok (.unit x) => match E.applyUnit now x s with
    | .error e => (live.adjust x.id fun p => { p with blocked := true }, s, .error e)
    | .ok ((report, next), t) =>
      (live.applied x.id next x.header.units.length (t.progress.map (·.1)), t, .ok report)

end

end SpooledQueue

end Axton
