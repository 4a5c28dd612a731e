import Axton.Client.Staging
import Axton.Client.Reconcile

/-!
# Network control

Model of `crates/client/src/sync05/downlink.rs` and of the commands and reports of `uplink.rs`. `Control`
correlates the outcomes of the effects it issued, stages what arrives and decides what to ask the network
and the Store worker for. It touches no store: a `StoreCommand` is queued in `jobs`, and what the worker
did comes back as a `StoreReport`.

| here | there |
|------|-------|
| `Control.effect`, `handshake`, `stop`, `wake` | the methods of the same names |
| `Control.receive` | `receive`, one definition for each kind of flight |
| `Control.absorb` | the match of `report` (downlink.rs:489-668), before its `schedule` |
| `Control.schedule` | `schedule` (downlink.rs:741) |

Effects are numbered by `issued`, the number in the id `control05:{n}`; flights are kept by it. A request is
its own JSON text, so sending one does not fail. How a text that arrives decodes is a parameter (`Wire`).
-/

namespace Axton

inductive Flight where
  | handshake (r : HandshakeRequest)
  | delta (r : DeltaRequest)
  | push (r : MutationRequest)
  | owned (r : MaterializationRequest)
  | socket
  | expire
  | retry
  | refresh
deriving DecidableEq

namespace Flight

def isHandshake : Flight → Bool
  | .handshake _ => true
  | _ => false

def isDelta : Flight → Bool
  | .delta _ => true
  | _ => false

def isPush : Flight → Bool
  | .push _ => true
  | _ => false

/-- A request made for `owner`. -/
def isOwned (owner : MaterializationOwner) : Flight → Bool
  | .owned r => r.owner = owner
  | _ => false

/-- What a new handshake cancels (downlink.rs:119-126). -/
def isConnection : Flight → Bool
  | .socket | .delta _ | .handshake _ | .owned _ | .push _ => true
  | _ => false

end Flight

/-! ## Effects -/

inductive HttpRoute where
  | handshake | pull | push | materialize
deriving DecidableEq, Repr

/-- `Operation`, as far as Control uses it. An HTTP body is the request the flight holds. -/
inductive NetOperation where
  | http (route : HttpRoute) (body : Flight)
  | socket (subscribe : HandshakeRequest)
  | timer (millis : Nat)
  | refreshAuth
deriving DecidableEq

inductive Diagnostic where
  | refused (message : String) (status : Nat) (body : Json)
  | error (message : String) (status : Option Nat)
deriving DecidableEq

inductive NetEvent where
  | effect (id : Nat) (operation : NetOperation)
  | cancelEffect (id : Nat)
  | report (d : Diagnostic)
deriving DecidableEq

structure EffectError where
  message : String
  status : Option Nat := none
  refusal : Option String := none
deriving DecidableEq

structure EffectOutcome where
  ok : Bool
  value : Option Json := none
  error : Option EffectError := none
deriving DecidableEq

inductive SocketEvent where
  | opened
  | message (body : String)
  | overflow
  | closed
deriving DecidableEq

/-- How the texts of the wire decode (`serde_json`). -/
structure Wire where
  json : String → Except String Json
  socketEvent : Json → Except String SocketEvent
  handshake : String → Except String HandshakeResponse
  delivery : String → Except String DeliveryResponse
  materialization : String → Except String MaterializationResponse
  acknowledgement : String → Except String BatchAcknowledgement

/-! ## The Store worker protocol -/

/-- `StoreStatus05`, as far as Control reads it. -/
structure StoreStatus where
  context : RequestContext
  startCursor : Option Nat
  bootstrapCursor : Option Nat
  cursor : Option Nat
deriving DecidableEq, Repr

structure PendingSettlement where
  mutationId : Nat
  batchId : Nat
  missingKeys : List RecordKey
deriving DecidableEq

/-- The commands Control queues; `Snapshot` is the worker's own (uplink.rs:19). -/
inductive StoreCommand where
  | initializeStream (head : Nat)
  | networkState (live catchingUp : Bool)
  | freeze
  | acknowledge (receipt : BatchAcknowledgement)
  | apply (planId : String) (queue : DeliveryQueue) (now : Nat)
  | cleanup (now : Nat)
  | snapshot
  | needs

/-- The reports of commands (uplink.rs:40); the fence around one is `WorkerReport`. -/
inductive StoreReport where
  | activePlans (active : List String)
  | snapshot (status : StoreStatus)
  | needs (status : Option StoreStatus) (schema : Option Engine.PendingSchema) (settlements : List PendingSettlement)
  | frozen (request : Option MutationRequest)
  | committed (status : StoreStatus) (plan : Option (String × Nat)) (activePlans : Option (List String))

/-- `WorkFence05`: the context and epoch a command was drained under. -/
structure WorkFence where
  context : RequestContext
  epoch : Nat
deriving DecidableEq

inductive WorkerReport where
  | guarded (fence : WorkFence) (report : Except String StoreReport)
  | obsolete
  | plain (report : StoreReport)

/-! ## Control -/

structure Control where
  context : RequestContext
  status : StoreStatus
  queue : DeliveryQueue := []
  flights : Table Nat Flight := []
  issued : Nat := 0
  connected : Bool := false
  paused : Bool := false
  live : Bool := false
  networkState : Option (Bool × Bool) := none
  deliveryHead : Nat
  bootstrapPrefetch : Bool
  events : List NetEvent := []
  jobs : List StoreCommand := []
  applying : Bool := false
  applyingPlan : Option String := none
  freezing : Bool := false
  wakeAfterNeeds : Bool := false
  waitingPush : Option MutationRequest := none
  failures : Nat := 0
  epoch : Nat := 1
  refreshAuth : Bool := false
  refreshing : Bool := false
  refreshWaiters : List Flight := []

/-- A call that may fail; what it did before it failed stays done. -/
abbrev Attempt := Control × Option String

/-- Go on only after success (`?`). -/
def Attempt.andThen (a : Attempt) (f : Control → Attempt) : Attempt :=
  match a with
  | (c, none) => f c
  | (c, some e) => (c, some e)

namespace Control

/-- `with_bootstrap_prefetch` (downlink.rs:53). -/
def withBootstrapPrefetch (status : StoreStatus) (enabled : Bool) : Control where
  context := status.context
  status := status
  deliveryHead := status.cursor.getD 0
  bootstrapPrefetch := enabled

def anyFlight (c : Control) (p : Flight → Bool) : Bool := c.flights.any fun e => p e.2

/-- `effect` (downlink.rs:88). The number was never used before, so the insertion adds an entry. -/
def effect (c : Control) (flight : Flight) (operation : NetOperation) : Control :=
  { c with
    issued := c.issued + 1
    flights := c.flights ++ [(c.issued + 1, flight)]
    events := c.events ++ [.effect (c.issued + 1) operation] }

/-- `http` (downlink.rs:97). -/
def http (c : Control) (flight : Flight) (route : HttpRoute) : Control := c.effect flight (.http route flight)

/-- Remove flights and tell the host (downlink.rs:115-133, 533-544, 634-646, 696-707). -/
def cancelFlights (c : Control) (p : Flight → Bool) : Control :=
  { c with
    flights := c.flights.filter fun e => !p e.2
    events := c.events ++ (c.flights.filter fun e => p e.2).map fun e => .cancelEffect e.1 }

def handshakeRequest (c : Control) : HandshakeRequest where
  storeId := c.context.storeId
  stream := c.context.stream

/-- A page request beyond the committed bootstrap position. -/
def prefetches (committed : Nat) : Flight → Bool
  | .delta r => r.bootstrap && decide (committed < r.after)
  | _ => false

/-- `retire_bootstrap_prefetch` (downlink.rs:694). -/
def retireBootstrapPrefetch (c : Control) : Control :=
  let committed := c.status.bootstrapCursor.getD 0
  let c := c.cancelFlights (prefetches committed)
  { c with
    refreshWaiters := c.refreshWaiters.filter fun f => !prefetches committed f
    queue := c.queue.filter fun e =>
      e.2.header.owner.isSome || !e.2.header.bootstrap || e.2.header.after.all (· ≤ committed) }

/-- The flags a new epoch resets (downlink.rs:109-114, 146-148, 159-161). -/
def newEpoch (c : Control) : Control :=
  { c with
    epoch := c.epoch + 1
    applying := false
    applyingPlan := none
    freezing := false
    wakeAfterNeeds := false
    waitingPush := none }

/-- `handshake` (downlink.rs:107). -/
def handshake (c : Control) : Control :=
  let c := c.retireBootstrapPrefetch.newEpoch.cancelFlights Flight.isConnection
  c.http (.handshake c.handshakeRequest) .handshake

/-- `connect` (downlink.rs:83). -/
def connect (c : Control) : Control := { c with connected := true, paused := false }.handshake

/-- `stop` (downlink.rs:145). -/
def stop (c : Control) : Control :=
  { (c.newEpoch.cancelFlights fun _ => true) with
    connected := false
    live := false
    networkState := none
    jobs := []
    refreshing := false
    refreshWaiters := [] }

/-- `pause` (downlink.rs:165). -/
def pause (c : Control) : Control := { c.stop with paused := true }

/-- The guard of `wake` (downlink.rs:170-173). -/
def wakes (c : Control) : Bool :=
  c.connected && !c.wakeAfterNeeds && !c.freezing && !c.anyFlight Flight.isPush

def push (c : Control) (job : StoreCommand) : Control := { c with jobs := c.jobs ++ [job] }

/-- `wake` (downlink.rs:169). -/
def wake (c : Control) : Control :=
  if c.wakes then { c with freezing := true }.push .freeze else c

/-- `resend` (downlink.rs:421). -/
def resend (c : Control) : Flight → Control
  | .handshake r => c.http (.handshake r) .handshake
  | .delta r => c.http (.delta r) .pull
  | .owned r => c.http (.owned r) .materialize
  | .push r => c.http (.push r) .push
  | .socket => c.handshake
  | .expire | .retry | .refresh => c

def tell (c : Control) (d : Diagnostic) : Control := { c with events := c.events ++ [.report d] }

/-- The delay before the next handshake (downlink.rs:452). -/
def retryMillis (failures : Nat) : Nat := min (250 * 2 ^ min failures 7) 30000

/-- `retry_status` (downlink.rs:446). -/
def retryStatus (c : Control) (message : String) (status : Option Nat) : Control :=
  let c := c.tell (.error message status)
  if c.connected && !c.anyFlight (· = .retry) then
    let failures := min (c.failures + 1) (2 ^ 32 - 1)
    { c with failures }.effect .retry (.timer (retryMillis failures))
  else c

/-- `network_error` (downlink.rs:456). -/
def networkError (c : Control) (message : String) : Control := c.retryStatus message none

/-- What `failed` does to the plan being applied (downlink.rs:461-469). -/
def blockPlan (c : Control) : Control :=
  match c.applyingPlan with
  | none => c
  | some id => match Table.get c.queue id with
    | none => { c with applyingPlan := none }
    | some p =>
      if p.header.owner.isSome then
        { c with applyingPlan := none, queue := Table.erase c.queue id }.push .needs
      else { c with applyingPlan := none, queue := c.queue.adjust id fun p => { p with blocked := true } }

/-- `failed` (downlink.rs:459). -/
def failed (c : Control) (message : String) : Control :=
  { c.retireBootstrapPrefetch.blockPlan with applying := false, freezing := false }.retryStatus message none

/-- `owned` (downlink.rs:672). -/
def owned (c : Control) (request : MaterializationRequest) : Control :=
  if !c.connected || c.paused then c
  else if c.anyFlight (Flight.isOwned request.owner) || c.queue.any (fun e => e.2.header.owner = some request.owner) then c
  else c.http (.owned request) .materialize

/-! ## Scheduling -/

/-- The committed position of a plan's lane. -/
def position (c : Control) (bootstrap : Bool) : Nat :=
  if bootstrap then c.status.bootstrapCursor.getD 0 else c.status.cursor.getD 0

/-- `Plan::worker_snapshot` (delivery_queue.rs:93). -/
def workerSnapshot (p : Plan) : Plan :=
  if p.header.owner.isSome then p else { p with parts := p.parts.filter fun e => e.1.1 = p.next }

/-- What the apply loop passes over (downlink.rs:773-796): held back plans, ranges ahead of the committed
position and owned transfers still incomplete. -/
def passesOver (c : Control) (p : Plan) : Bool :=
  Engine.heldBack c.queue p || p.header.after.any (c.position p.header.bootstrap < ·) ||
    (p.header.owner.isSome && (p.owner.isNone || !(List.range p.header.units.length).all p.complete))

/-- The apply loop (downlink.rs:772-809): the first plan with a complete next unit. -/
def selectPlan (c : Control) : List (String × Plan) → Except String (Option (String × Plan))
  | [] => .ok none
  | (id, p) :: rest =>
    if c.passesOver p then selectPlan c rest
    else match p.unit p.next with
      | .error e => .error e
      | .ok (some _) => .ok (some (id, p))
      | .ok none => selectPlan c rest

/-- Queue an Apply unless one is under way (downlink.rs:771-810). -/
def startApply (c : Control) (now : Nat) : Attempt :=
  if c.applying then (c, none)
  else match c.selectPlan c.queue with
    | .error e => (c, some e)
    | .ok none => (c, none)
    | .ok (some (id, p)) =>
      ({ c with applying := true, applyingPlan := some id }.push (.apply id [(id, workerSnapshot p)] now), none)

/-- Drop expired plans (downlink.rs:745-749). -/
def expirePlans (c : Control) (now : Nat) : Control :=
  let queue := c.queue.expire now
  if queue.length ≠ c.queue.length then { c with queue }.push (.cleanup now) else { c with queue }

/-- One timer for the next expiry (downlink.rs:750-759). -/
def armExpiry (c : Control) (now : Nat) : Control :=
  match (c.queue.map fun e => e.2.header.expiresAt).min? with
  | none => c
  | some expires =>
    if c.anyFlight (· = .expire) then c else c.effect .expire (.timer (max (expires - now) 1))

/-- Tell the worker whether the connection is live and catching up (downlink.rs:760-770). -/
def noteNetwork (c : Control) : Control :=
  let state := (c.live, c.status.cursor.all (· < c.deliveryHead))
  if c.networkState = some state then c
  else { c with networkState := some state }.push (.networkState state.1 state.2)

/-- Staged bootstrap pages that reach beyond the committed position (downlink.rs:721-726). -/
def bootstrapPages (c : Control) (committed : Nat) : List Plan :=
  (c.queue.filter fun e => e.2.header.owner.isNone && e.2.header.bootstrap && e.2.header.context = c.context &&
    e.2.header.through.any (committed < ·)).map (·.2)

/-- `bootstrap_prefetch_after` (downlink.rs:717). -/
def bootstrapPrefetchAfter (c : Control) (committed through : Nat) : Option Nat :=
  if !c.bootstrapPrefetch then none
  else match c.bootstrapPages committed with
    | [current] =>
      if current.blocked || !current.header.after.any (· ≤ committed) ||
          !((List.range current.header.units.length).drop current.next).all current.complete then none
      else current.header.through.filter fun e => decide (committed < e) && decide (e < through)
    | _ => none

/-- Whether the bootstrap range is still incomplete (downlink.rs:822). -/
def bootstraps (c : Control) : Bool := c.status.bootstrapCursor ≠ c.status.startCursor

/-- Where the lane that is waited for has to get (downlink.rs:828-832). -/
def target (c : Control) : Nat :=
  if c.bootstraps then c.status.startCursor.getD 0 else c.deliveryHead

/-- A staged plan of the lane that starts at or before its position and does not end before it
(downlink.rs:833-837). -/
def continues (c : Control) (p : Plan) : Bool :=
  decide (p.header.bootstrap = c.bootstraps) && p.header.after.any (· ≤ c.position c.bootstraps) &&
    p.header.through.any (c.position c.bootstraps ≤ ·)

def requestPage (c : Control) (after : Nat) (bootstrap : Bool) : Control :=
  c.http (.delta { context := c.context, after, through := c.target, bootstrap }) .pull

/-- Ask for the next page (downlink.rs:811-858). -/
def pull (c : Control) : Control :=
  if c.anyFlight Flight.isDelta || c.refreshWaiters.any Flight.isDelta then c
  else if c.status.startCursor.isNone then c
  else if c.queue.any (fun e => c.continues e.2) then
    match (if c.bootstraps then c.bootstrapPrefetchAfter (c.position true) c.target else none) with
    | some after => c.requestPage after true
    | none => c
  else if c.bootstraps || c.position false < c.target then c.requestPage (c.position c.bootstraps) c.bootstraps
  else c

/-- `schedule` (downlink.rs:741). -/
def schedule (c : Control) (now : Nat) : Attempt :=
  if !c.connected || c.paused then (c, none)
  else Attempt.andThen ((((c.expirePlans now).armExpiry now).noteNetwork).startApply now) fun c => (c.pull, none)

/-! ## Reports -/

/-- A different store (downlink.rs:490-501): everything of the old one is dropped. -/
def changeStore (c : Control) (status : StoreStatus) : Control :=
  let c' := { c.stop with queue := [], deliveryHead := status.cursor.getD 0, context := status.context }
  if c.connected then c'.connect else c'

/-- `StoreReport::Snapshot` (downlink.rs:489-506). -/
def absorbSnapshot (c : Control) (status : StoreStatus) : Control :=
  let c := if status.context.storeId ≠ c.context.storeId then c.changeStore status else c
  { c with context := status.context, status, wakeAfterNeeds := true }.push .needs

/-- The owners the store still waits for (downlink.rs:514-532). -/
def pendingOwner (active : RequestContext) (schema : Option Engine.PendingSchema)
    (settlements : List PendingSettlement) (context : RequestContext) : MaterializationOwner → Bool
  | .schema previous => schema.any fun s => s.desiredContext = context && s.previousContext.materialization = previous
  | .settlement batchId mutationId =>
    context = active && settlements.any fun s => s.batchId = batchId && s.mutationId = mutationId

/-- Owned requests the store no longer waits for. -/
def unowned (pending : RequestContext → MaterializationOwner → Bool) : Flight → Bool
  | .owned r => !pending r.context r.owner
  | _ => false

/-- An Apply of a plan that is not staged any more. -/
def retiredApply (q : DeliveryQueue) : StoreCommand → Bool
  | .apply planId _ _ => (Table.get q planId).isNone
  | _ => false

/-- Drop completed owners and the work for them (downlink.rs:533-567). -/
def retireOwners (c : Control) (pending : RequestContext → MaterializationOwner → Bool) : Control :=
  let c := c.cancelFlights (unowned pending)
  let queue := c.queue.filter fun e => e.2.header.owner.all (pending e.2.header.context)
  let retired := c.jobs.any (retiredApply queue)
  { c with
    refreshWaiters := c.refreshWaiters.filter fun f => !unowned pending f
    queue
    jobs := c.jobs.filter fun j => !retiredApply queue j
    applying := if retired then false else c.applying
    applyingPlan := if retired then none else c.applyingPlan }

/-- The schema transfer asked for (downlink.rs:568-579). -/
def askSchema (c : Control) (schema : Option Engine.PendingSchema) : Control :=
  match schema with
  | none => c
  | some s => c.owned {
      context := s.desiredContext
      requestId := "schema:" ++ toString (c.issued + 1)
      owner := .schema s.previousContext.materialization
      keys := s.authorityKeys
      models := s.bootstrapModels }

/-- The authority one settlement misses (downlink.rs:586-600). -/
def askSettlement (c : Control) (s : PendingSettlement) : Control :=
  if s.missingKeys.isEmpty then c
  else c.owned {
    context := c.context
    requestId := "settlement:" ++ toString (c.issued + 1)
    owner := .settlement s.batchId s.mutationId
    keys := s.missingKeys
    models := [] }

/-- Durable progress wakes the uplink (downlink.rs:580-585). -/
def noteProgress (c : Control) : Option StoreStatus → Control
  | none => c
  | some status => { c with status, wakeAfterNeeds := true }

/-- Send the Push that waited for Needs, then wake (downlink.rs:601-607). -/
def releasePush (c : Control) : Control :=
  let wake := c.wakeAfterNeeds
  let c := { c with wakeAfterNeeds := false }
  let c := match c.waitingPush with
    | none => c
    | some request => { c with waitingPush := none }.http (.push request) .push
  if wake then c.wake else c

/-- `StoreReport::Needs` (downlink.rs:507-608). -/
def absorbNeeds (c : Control) (status : Option StoreStatus) (schema : Option Engine.PendingSchema)
    (settlements : List PendingSettlement) : Control :=
  let c := (c.retireOwners (pendingOwner c.context schema settlements)).askSchema schema
  (settlements.foldl askSettlement (c.noteProgress status)).releasePush

/-- `StoreReport::Frozen` (downlink.rs:609-618). -/
def absorbFrozen (c : Control) (request : Option MutationRequest) : Control :=
  let c := { c with freezing := false }
  match request with
  | none => c
  | some r => if c.wakeAfterNeeds then { c with waitingPush := some r } else c.http (.push r) .push

/-- Keep the untouched plans and those the store has progress of (downlink.rs:619-623, 648-652). -/
def keepActive (c : Control) (active : List String) : Control :=
  { c with queue := c.queue.filter fun e => e.2.next = 0 || active.contains e.1 }

/-- A request in another context than `context`. -/
def foreign (context : RequestContext) : Flight → Bool
  | .delta r => r.context ≠ context
  | .owned r => r.context ≠ context
  | _ => false

/-- The store switched materialization (downlink.rs:630-647). -/
def followContext (c : Control) (context : RequestContext) : Control :=
  if context = c.context then c
  else { c with queue := c.queue.filter fun e => e.2.header.context = context }.cancelFlights (foreign context)

/-- The plan an Apply advanced (downlink.rs:657-667). -/
def advancePlan (c : Control) (plan : Option (String × Nat)) : Control :=
  match plan with
  | none => c
  | some (id, next) =>
    let queue := c.queue.adjust id fun p => { p with next, parts := p.parts.filter fun e => next ≤ e.1.1 }
    { c with
      applying := false
      applyingPlan := none
      queue := queue.filter fun e => e.1 ≠ id || decide (e.2.next < e.2.header.units.length) }

/-- `StoreReport::Committed` (downlink.rs:624-668). -/
def absorbCommitted (c : Control) (status : StoreStatus) (plan : Option (String × Nat))
    (active : Option (List String)) : Control :=
  let c := c.followContext status.context
  let c := match active with
    | none => c
    | some ids => c.keepActive ids
  ({ c with context := status.context, status, wakeAfterNeeds := true }.push .needs).advancePlan plan

/-- What a report changes before the next `schedule`. -/
def absorb (c : Control) : StoreReport → Control
  | .activePlans active => c.keepActive active
  | .snapshot status => c.absorbSnapshot status
  | .needs status schema settlements => c.absorbNeeds status schema settlements
  | .frozen request => c.absorbFrozen request
  | .committed status plan active => c.absorbCommitted status plan active

/-- The fence check of `report` (downlink.rs:478). -/
def passes (c : Control) (f : WorkFence) : Bool := f.epoch = c.epoch && f.context = c.context

/-- `report` (downlink.rs:474). -/
def report (c : Control) (r : WorkerReport) (now : Nat) : Attempt :=
  match r with
  | .obsolete => (c, none)
  | .plain r => (c.absorb r).schedule now
  | .guarded f r =>
    if !c.passes f then (c, none)
    else match r with
      | .ok r => (c.absorb r).schedule now
      | .error e => (c.failed e, none)

/-! ## Outcomes -/

section
variable (P : Platform) (W : Wire) (z : Sizes)

/-- The next refusal body, as JSON where it is (downlink.rs:213). -/
def refusalBody (body : String) : Json :=
  match W.json body with
  | .ok v => v
  | .error _ => .str body

/-- A request that was not authorised waits for the one credential refresh (downlink.rs:220-242). -/
def waitForToken (c : Control) (id : Nat) (flight : Flight) (e : EffectError) : Control :=
  let c := { c.tell (.error e.message e.status) with
    flights := c.flights.erase id
    refreshWaiters := c.refreshWaiters ++ [flight] }
  if c.refreshing then c else { c with refreshing := true }.effect .refresh .refreshAuth

/-- The message and status a lost request is reported with (downlink.rs:248-250). -/
def failureOf : Option EffectError → String × Option Nat
  | some e => (e.message, e.status)
  | none => ("network failed", none)

/-- A request is lost and the connection will be retried; a lost refresh drops its waiters
(downlink.rs:243-252). -/
def loseFlight (c : Control) (id : Nat) (flight : Flight) (error : Option EffectError) : Control :=
  let c := if flight = .refresh then { c with refreshing := false, refreshWaiters := [] } else c
  { c with flights := c.flights.erase id }.retryStatus (failureOf error).1 (failureOf error).2

/-- An effect failed (downlink.rs:206-253). -/
def receiveFailure (c : Control) (id : Nat) (flight : Flight) : Option EffectError → Control
  | none => c.loseFlight id flight none
  | some e => match e.status, e.refusal with
    | some status, some body => c.stop.tell (.refused e.message status (refusalBody W body))
    | _, _ =>
      if e.status = some 401 && c.refreshAuth && flight ≠ .refresh then c.waitForToken id flight e
      else c.loseFlight id flight (some e)

/-- Raise the known head, then schedule. -/
def learnHead (c : Control) (head now : Nat) : Attempt :=
  { c with deliveryHead := max c.deliveryHead head }.schedule now

/-- A live offer in the active materialization (downlink.rs:315-347): staged when nothing ordinary waits, or
when it completes a staged plan; else only its head is kept. -/
def receiveOffer (c : Control) (d : DeliveryResponse) (now : Nat) : Attempt :=
  let cursor := c.status.cursor.getD 0
  let advances := d.header.after.any (· ≤ cursor) && d.header.through.any (cursor < ·)
  if (Table.get c.queue d.header.planId).isNone &&
      (c.queue.any (fun e => e.2.header.owner.isNone) || (!advances && c.anyFlight Flight.isDelta)) then
    match DeliveryQueue.validateOffer d.header d.parts c.context now with
    | .error e => (c, some e)
    | .ok _ => c.learnHead d.header.observedHead now
  else match c.queue.receiveBounded z d.header d.parts c.context now false with
    | (q, .error e) => ({ c with queue := q }, some e)
    | (q, .ok _) => { c with queue := q }.learnHead d.header.observedHead now

/-- A frame with deliveries (downlink.rs:302-347). -/
def receiveFrame (c : Control) (d : DeliveryResponse) (now : Nat) : Attempt :=
  if d.header.bootstrap || d.header.owner.isSome then (c, some "invalid socket delivery purpose")
  else match d.header.context.admitStore c.context with
    | .error e => (c, some e)
    | .ok _ =>
      if d.header.context.materialization ≠ c.context.materialization then
        match d.header.validate with
        | .error e => (c, some e)
        | .ok _ => c.learnHead d.header.observedHead now
      else c.receiveOffer z d now

/-- The head a socket acknowledges (downlink.rs:291-301). -/
def receiveHead (c : Control) (body : String) (now : Nat) : Attempt :=
  match W.handshake body with
  | .error e => (c, some e)
  | .ok ack => match ack.admitHandshake c.handshakeRequest with
    | .error e => (c, some e)
    | .ok _ => c.learnHead ack.head now

/-- `SocketEvent::Message` (downlink.rs:289-348). -/
def receiveMessage (c : Control) (body : String) (now : Nat) : Attempt :=
  match W.json body with
  | .error e => (c, some e)
  | .ok raw =>
    if (raw.field "head").isSome && (raw.field "header").isNone then c.receiveHead W body now
    else match W.delivery body with
      | .error e => (c, some e)
      | .ok d => c.receiveFrame z d now

/-- The plans a closed socket leaves (downlink.rs:281-285). -/
def closeSocket (c : Control) (id : Nat) : Control :=
  { c with
    flights := c.flights.erase id
    live := false
    queue := c.queue.filter fun e => e.2.header.owner.isSome ||
      ((List.range e.2.header.units.length).drop e.2.next).all e.2.complete }

/-- One event of an open socket (downlink.rs:269-351). -/
def receiveSocket (c : Control) (id : Nat) (value : Option Json) (now : Nat) : Attempt :=
  match W.socketEvent (value.getD .null) with
  | .error e => (c, some e)
  | .ok .opened => { c with live := true }.schedule now
  | .ok (.message body) => c.receiveMessage W z body now
  | .ok .closed | .ok .overflow =>
    Attempt.andThen ((c.closeSocket id).schedule now) fun c => (c.retryStatus "socket closed or overflow" none, none)

/-- The HTTP body of an outcome (downlink.rs:352-360). -/
def httpBody : Option Json → Except String String
  | some (.str body) => .ok body
  | some (.obj fields) => match (Fields.get fields "body").bind Json.asStr with
    | some body => .ok body
    | none => .error "HTTP body required"
  | _ => .error "HTTP body required"

/-- A handshake was answered (downlink.rs:362-375). -/
def receiveHandshake (c : Control) (request : HandshakeRequest) (body : String) : Attempt :=
  match W.handshake body with
  | .error e => (c, some e)
  | .ok response => match response.admitHandshake request with
    | .error e => (c, some e)
    | .ok _ =>
      let c := { c with deliveryHead := max c.deliveryHead response.head, failures := 0 }
      ((c.push (.initializeStream response.head)).effect .socket (.socket request), none)

/-- Stage a page; a speculative one that does not fit ends prefetching (downlink.rs:381-397). -/
def stagePage (c : Control) (request : DeltaRequest) (d : DeliveryResponse) (now : Nat) : Attempt :=
  let speculative := request.bootstrap && decide (c.status.bootstrapCursor.getD 0 < request.after)
  match c.queue.receiveBounded z d.header d.parts c.context now speculative with
  | (q, .error e) => ({ c with queue := q }, some e)
  | (q, .ok staged) =>
    ({ c with queue := q, bootstrapPrefetch := c.bootstrapPrefetch && (!speculative || staged) }, none)

/-- A page arrived (downlink.rs:376-399). -/
def receiveDelta (c : Control) (request : DeltaRequest) (body : String) (now : Nat) : Attempt :=
  match W.delivery body with
  | .error e => (c, some e)
  | .ok d => match d.admitPage request c.context, d.requireComplete with
    | .error e, _ => (c, some e)
    | _, .error e => (c, some e)
    | .ok _, .ok _ =>
      Attempt.andThen ({ c with deliveryHead := max c.deliveryHead d.header.observedHead }.stagePage z request d now)
        fun c => c.schedule now

/-- An owned transfer arrived (downlink.rs:400-406). -/
def receiveOwned (c : Control) (request : MaterializationRequest) (body : String) (now : Nat) : Attempt :=
  match W.materialization body with
  | .error e => (c, some e)
  | .ok m => match m.delivery.requireComplete with
    | .error e => (c, some e)
    | .ok _ => match c.queue.receiveOwned P z request m c.context now with
      | (q, .error e) => ({ c with queue := q }, some e)
      | (q, .ok _) => { c with queue := q }.schedule now

/-- A Push was answered (downlink.rs:407-416). -/
def receivePush (c : Control) (request : MutationRequest) (body : String) : Attempt :=
  match W.acknowledgement body with
  | .error e => (c, some e)
  | .ok a => match a.validate P with
    | .error e => (c, some e)
    | .ok _ =>
      if a.context ≠ request.context ∨ a.batchId ≠ request.batchId ∨ a.digest ≠ request.digest then
        (c, some "Batch acknowledgement correlation mismatch")
      else (c.push (.acknowledge a), none)

/-- An effect succeeded; its flight is already removed unless it is a socket (downlink.rs:254-420). -/
def receiveSuccess (c : Control) (id : Nat) (value : Option Json) (now : Nat) : Flight → Attempt
  | .refresh =>
    (c.refreshWaiters.foldl resend { c with refreshing := false, refreshWaiters := [] }, none)
  | .expire => (c.push (.cleanup now)).schedule now
  | .retry => ({ c with queue := c.queue.retryBlocked }.handshake, none)
  | .socket => c.receiveSocket W z id value now
  | .handshake r => match httpBody value with
    | .error e => (c, some e)
    | .ok body => c.receiveHandshake W r body
  | .delta r => match httpBody value with
    | .error e => (c, some e)
    | .ok body => c.receiveDelta W z r body now
  | .owned r => match httpBody value with
    | .error e => (c, some e)
    | .ok body => c.receiveOwned P W z r body now
  | .push r => match httpBody value with
    | .error e => (c, some e)
    | .ok body => c.receivePush P W r body

/-- `receive` (downlink.rs:199). An outcome of no flight is ignored. -/
def receive (c : Control) (id : Nat) (outcome : EffectOutcome) (now : Nat) : Attempt :=
  match c.flights.get id with
  | none => (c, none)
  | some flight =>
    let c := if flight = .socket then c else { c with flights := c.flights.erase id }
    if !outcome.ok then (c.receiveFailure W id flight outcome.error, none)
    else c.receiveSuccess P W z id outcome.value now flight

/-- The actor's handling of an outcome (actor.rs:736-738). -/
def onEffect (c : Control) (id : Nat) (outcome : EffectOutcome) (now : Nat) : Control :=
  match c.receive P W z id outcome now with
  | (c, none) => c
  | (c, some e) => c.networkError e

end

/-- The actor's handling of a report (actor.rs:683-693). -/
def onReport (c : Control) (message : Except String WorkerReport) (now : Nat) : Control :=
  match message with
  | .error e => c.failed e
  | .ok r => match c.report r now with
    | (c, none) => c
    | (c, some e) => c.failed e

end Control

end Axton
