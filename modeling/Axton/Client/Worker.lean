import Axton.Client.Control
import Axton.Client.Runtime

/-!
# The Store worker

Model of `store_worker05` (runtime/mod.rs:217) over the client's calls, and of the local inputs the worker
serves between commands (`worker05`, bindings/common/src/actor.rs:819): calls of the application and
`reset_store05` (sync05/reset.rs).

A command runs only while its fence holds: the epoch it was drained under is current and the store is in
the context it was drained for. `WorkerFaults.context` is a failure to read that context.
-/

namespace Axton

/-- Which store accesses of one command fail. -/
structure WorkerFaults extends Faults where
  context : Bool := false
  status : Bool := false
deriving DecidableEq, Repr

namespace Engine

/-- `store_status05` (store05.rs:211). -/
def storeStatus (s : Store) : StoreStatus where
  context := s.context
  startCursor := s.row.startCursor
  bootstrapCursor := s.row.bootstrapCursor
  cursor := s.row.cursor

/-- The targets of a call whose authority is missing (settlement05.rs:213-224). -/
def missingKeys (s : Store) (r : MutationRow) : Except String (List RecordKey) := do
  let dispositions ← r.targets.mapM fun t => do
    let d ← targetDisposition t s.row.materialization (targetEvidence s t.key)
    return (t.key, d)
  return (dispositions.filter fun e => e.2 = .awaitAuthority).map (·.1)

/-- `pending_settlement05` (settlement05.rs:208), with the keys each call misses. -/
def settlementNeeds (s : Store) : Except String (List PendingSettlement) :=
  (s.queue.filter fun r => r.syncCursor.isSome && !r.reconciled).mapM fun r => do
    let missing ← missingKeys s r
    match r.batchId with
    | some batchId => return ⟨r.id, batchId, missing⟩
    | none => .error "invalid integer"

/-- `reset_store05` (sync05/reset.rs:13): a fresh store id in the desired materialization, nothing else kept
but the descriptors. -/
def resetStore (fresh : String) (discardPending : Bool) (s : Store) : Except String (Unit × Store) := do
  check (discardPending || !s.queue.any (·.pending)) "pending work prevents Store reset"
  return ((), {
    descriptors := s.descriptors
    row := { s.row with
      id := fresh
      materialization := s.row.desiredMaterialization
      enabledDescriptor := s.row.schemaDescriptor
      nextMutationId := 1
      nextLocalSequence := 1
      lastAcknowledgedBatchId := 0
      startCursor := none
      bootstrapCursor := none
      cursor := none } })

end Engine

/-- The kind of report a command is answered with. -/
def StoreCommand.answeredBy : StoreCommand → StoreReport → Bool
  | .initializeStream _, .snapshot _ => true
  | .networkState _ _, .snapshot _ => true
  | .snapshot, .snapshot _ => true
  | .freeze, .frozen _ => true
  | .acknowledge _, .committed _ none _ => true
  | .apply _ _ _, .committed _ (some _) _ => true
  | .cleanup _, .activePlans _ => true
  | .needs, .needs _ _ _ => true
  | _, _ => false

namespace Client

section
variable (P : Platform) (H : Hashes)

/-- The queue `apply_next_delivery05` leaves behind (delta_applier.rs:32, 40-54, 168-178). -/
def delivered (c : Client) (now : Nat) (q : DeliveryQueue) : DeliveryQueue :=
  let live := Engine.liveQueue now c.store q
  match Engine.choose now q c.store with
  | .ok (.unit x) => match (c.engine P).applyUnit now x c.store with
    | .ok ((_, next), t) =>
      let kept := live.filter fun e => e.1 = x.id || e.2.next = 0 || (t.progress.get e.1).isSome
      if x.header.units.length ≤ next then Table.erase kept x.id
      else DeliveryQueue.adjust kept x.id fun p => { p with next, parts := p.parts.filter fun e => next ≤ e.1.1 }
    | .error _ => live
  | _ => live

/-- The unit an applied plan continues with; none is `u64::MAX` (runtime/mod.rs:300). -/
def nextUnit (c : Client) (now : Nat) (q : DeliveryQueue) (planId : String) : Nat :=
  ((Table.get (c.delivered P now q) planId).map (·.next)).getD (2 ^ 64 - 1)

/-- Read the status after a successful call. -/
def statusAfter (f : WorkerFaults) (c : Client) (report : StoreStatus → StoreReport) : Except String StoreReport × Client :=
  if f.status then (.error "store failure", c) else (.ok (report (Engine.storeStatus c.store)), c)

/-- `StoreCommand::Needs` (runtime/mod.rs:258-273): settle what is ready, then read what is missing. -/
def needsReport (f : WorkerFaults) (c : Client) (settled : List CallCompletion) : Except String StoreReport :=
  if f.status then .error "store failure"
  else do
    let schema ← Engine.pendingSchema c.store
    let settlements ← Engine.settlementNeeds c.store
    return .needs (if settled.isEmpty then none else some (Engine.storeStatus c.store)) schema settlements

/-- `store_worker05` on a command without its fence (runtime/mod.rs:245-312). -/
def storeWorker (c : Client) (f : WorkerFaults) (now : Nat) : StoreCommand → Except String StoreReport × Client
  | .networkState _ _ | .snapshot => statusAfter f c .snapshot
  | .initializeStream head => match c.call P H f.toFaults (.handshake head) with
    | (.error e, c') => (.error e, c')
    | (.ok _, c') => statusAfter f c' .snapshot
  | .needs => match c.call P H f.toFaults .settle with
    | (.error e, c') => (.error e, c')
    | (.ok o, c') => (needsReport f c' o.completions, c')
  | .cleanup expiry => match c.call P H f.toFaults (.cleanup expiry) with
    | (.error e, c') => (.error e, c')
    | (.ok _, c') => (.ok (.activePlans (c'.store.progress.map (·.1))), c')
  | .freeze => match c.call P H f.toFaults .freeze with
    | (.error e, c') => (.error e, c')
    | (.ok o, c') => (.ok (.frozen o.frozen), c')
  | .acknowledge receipt => match c.call P H f.toFaults (.acknowledge receipt) with
    | (.error e, c') => (.error e, c')
    | (.ok _, c') => statusAfter f c' fun status => .committed status none none
  | .apply planId queue _ => match c.deliver P f.toFaults now queue with
    | (.error e, c') => (.error e, c')
    | (.ok _, c') => match Engine.pendingSchema c'.store with
      | .error e => (.error e, c')
      | .ok _ => statusAfter f c' fun status =>
        .committed status (some (planId, c.nextUnit P now queue planId)) (some (c'.store.progress.map (·.1)))

theorem statusAfter_ok {f : WorkerFaults} {c c' : Client} {report : StoreStatus → StoreReport} {r : StoreReport}
    (h : statusAfter f c report = (.ok r, c')) : r = report (Engine.storeStatus c.store) := by
  unfold statusAfter at h
  split at h
  · cases h
  · cases h
    rfl

/-- **A command is answered by its own kind of report.** -/
theorem storeWorker_answered {c c' : Client} {f : WorkerFaults} {now : Nat} {command : StoreCommand} {r : StoreReport}
    (h : c.storeWorker P H f now command = (.ok r, c')) : command.answeredBy r = true := by
  cases command with
  | networkState live catchingUp => rw [statusAfter_ok h]; rfl
  | snapshot => rw [statusAfter_ok h]; rfl
  | initializeStream head =>
    simp only [storeWorker] at h
    split at h
    · cases h
    · rw [statusAfter_ok h]; rfl
  | needs =>
    simp only [storeWorker] at h
    split at h
    · cases h
    · simp only [Prod.mk.injEq] at h
      have hr := h.1
      unfold needsReport at hr
      split at hr
      · cases hr
      · simp only [bind_ok, pure_ok] at hr
        obtain ⟨_, _, _, _, rfl⟩ := hr
        rfl
  | cleanup expiry =>
    simp only [storeWorker] at h
    split at h
    · cases h
    · cases h; rfl
  | freeze =>
    simp only [storeWorker] at h
    split at h
    · cases h
    · cases h; rfl
  | acknowledge receipt =>
    simp only [storeWorker] at h
    split at h
    · cases h
    · rw [statusAfter_ok h]; rfl
  | apply planId queue at' =>
    simp only [storeWorker] at h
    split at h
    · cases h
    · split at h
      · cases h
      · rw [statusAfter_ok h]; rfl

/-- A guarded command (runtime/mod.rs:222-231). The failure to read the context is not guarded. -/
def guardedWorker (c : Client) (f : WorkerFaults) (current now : Nat) (fence : WorkFence) (command : StoreCommand) :
    Except String WorkerReport × Client :=
  if fence.epoch ≠ current then (.ok .obsolete, c)
  else if f.context then (.error "store failure", c)
  else if c.store.context ≠ fence.context then (.ok .obsolete, c)
  else match c.storeWorker P H f now command with
    | (r, c') => (.ok (.guarded fence r), c')

/-- What the application may do to the store between commands. -/
inductive LocalInput where
  | call (x : Call) (f : Faults)
  | reset (fresh : String) (discardPending fault : Bool)

/-- The store after a local input. -/
def serve (c : Client) : LocalInput → Client
  | .call x f => (c.call P H f x).2
  | .reset fresh discardPending fault => (c.write fault (Engine.resetStore fresh discardPending)).2

end

end Client

end Axton
