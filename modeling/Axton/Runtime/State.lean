import Axton.Runtime.Bridge
import Axton.Lib.Tally
import Axton.Client.Control

/-!
# The client runtime

Model of the state of `crates/client/src/runtime/`: `ClientRuntime` (mod.rs:24) and the records of its
tasks, transaction, direct calls, prerequisites and observers. The runtime is generic over its client, as
the source is over its store: a `ClientApi C` gives the client's operations, each of which may answer
anything, and nothing is assumed of them.

| here | there |
|------|-------|
| `ClientApi` | the methods of `Client` the runtime calls |
| `Queued`, `Tasks` | tasks.rs:14-24; `routed` is kept as a list |
| `Transaction`, `Scope`, `LocalCallback`, `Continuation` | transactions.rs:31-125 |
| `Call`, `Failure` | direct.rs:51, direct.rs:107 |
| `EffectKind`, `Ready`, `Connection` | effects.rs:15-35, lanes.rs:4 |
| `Registration`, `Watch`, `SqlWatch`, `UnsentObserver` | observers.rs, sql_watches.rs, unsent.rs |

A `BTreeMap` is a `Table`; where the source walks one, the model walks its entries in key order
(`Table.sorted`). `sync05_live` and `sync05_catching_up` are `live` and `catchingUp`.
-/

namespace Axton

open Bridge

/-! ## What the client answers -/

/-- `SubscriptionState` (subscriptions.rs:5). -/
structure SubscriptionState where
  stream : String
  subscriptionId : Nat
  startingCursor : Option Nat
  cursor : Option Nat
deriving DecidableEq

def SubscriptionState.json (s : SubscriptionState) : Json := .ofEntries [
  ("stream", .str s.stream), ("subscriptionId", .nat s.subscriptionId),
  ("startingCursor", .optional .nat s.startingCursor), ("cursor", .optional .nat s.cursor)]

inductive BootstrapPhase where
  | notRequested | requested | loading | catchingUp | complete | failed
deriving DecidableEq, Repr

structure BootstrapError where
  code : String
  message : String
deriving DecidableEq

/-- `BootstrapState` (bootstrap.rs:48). -/
structure BootstrapState where
  stream : String
  subscriptionId : Nat
  state : BootstrapPhase
  run : Nat
  cursor : Nat
  barrier : Option Nat
  error : Option BootstrapError
deriving DecidableEq

structure SubmittedCall where
  callId : String
  ordinal : Nat
deriving DecidableEq, Repr

/-- A completion announced as `callCompleted`: the call and its outcome as JSON. -/
structure Completion where
  callId : String
  outcome : Json
deriving DecidableEq

/-- What the runtime announces of an `ApplyReport`. -/
structure Announced where
  reports : List Json := []
  completions : List Completion := []

/-- What `reset_store05` answers: the abandoned calls and the whole report as JSON. -/
structure ResetReport where
  abandonedCalls : List (String × Bool)
  json : Json

inductive ReadInvocation where
  | query (name : String) (version : Nat) (args : Json)
  | fetch (key : RecordKey) (version : Nat)
deriving DecidableEq

structure ReadRequest where
  context : RequestContext
  requestId : String
  store : Bool
  invocation : ReadInvocation
deriving DecidableEq

inductive ReadOutcome where
  | succeeded (result : Json)
  | failed (code message : String)
deriving DecidableEq

/-- A response that `apply_read05` decoded and admitted against its request. -/
structure AdmittedRead where
  store : Bool
  records : List ReadRecord
  outcome : ReadOutcome

/-- `ModelChange` (changes.rs:15): the records of one model that commits wrote, or all of them. -/
inductive ModelChange where
  | keys (keys : Table String RecordKey)
  | all

/-- A call of the client: it answers and leaves the client changed. -/
abbrev Answer (C α : Type) := C → Except String α × C

/-- The client as the runtime sees it. `admitRead` is the decoding and admission of a read response
(direct.rs:434-524); its error carries `snapshot_mismatch`. `drain` empties the channel of a table watcher
and says whether it held a signal. -/
structure ClientApi (C : Type) where
  generation : C → Nat
  schema : C → Schema
  resultModel : String → Nat → C → Bool
  requestContext : Answer C RequestContext
  pendingSchema : Answer C Bool
  startCursor : Answer C (Option Nat)
  read : Read → Answer C Json
  inspect : Inspect → Answer C Json
  direct : Axton.Operation → Answer C Unit
  submitMutation : String → Nat → Json → Answer C SubmittedCall
  setReadiness : String → Bridge.Readiness → Answer C Unit
  dropMutation : Nat → Answer C Json
  discardMutation : Nat → Answer C Json
  dismissRejection : Nat → Answer C Unit
  retryTasks : List String → Answer C Unit
  outcome : String → Option String → Answer C Unit
  pendingTasks : Answer C (List Json)
  resetStore : Bool → Answer C ResetReport
  subscriptionState : String → Answer C (Option SubscriptionState)
  bootstrapState : String → Nat → Answer C BootstrapState
  encodeRead : ReadRequest → Except String String
  admitRead : String → String → C → Except (Bool × String) AdmittedRead × C
  installCache : List ReadRecord → Answer C Unit
  beginSession : Answer C Unit
  commitSession : Answer C Unit
  rollbackSession : Answer C Unit
  sessionSavepoint : Answer C Unit
  sessionRelease : Answer C Unit
  sessionRollbackSavepoint : Answer C Unit
  sessionRead : Read → Answer C Json
  sessionDirect : Axton.Operation → Answer C Unit
  sessionSubmit : String → Nat → Json → List Axton.Operation → Answer C SubmittedCall
  previewCallback : Axton.Operation → Answer C (List Axton.Operation)
  appendCompanion : Nat → Axton.Operation → Answer C Unit
  sessionDismiss : Nat → Answer C Unit
  sessionRetryTasks : List String → Answer C Unit
  sessionDiscard : Nat → Answer C (List Completion)
  query : String → Json → Answer C (List Json)
  queryKeys : String → Json → List RecordKey → Answer C (List Json)
  takeModelChanges : C → Table String ModelChange × C
  unsent : UnsentView → Answer C Json
  sqlTables : String → Answer C (List String)
  readSql : String → List Json → Answer C (List Json)
  watchKeyed : List String → C → Nat × C
  drain : Nat → C → Bool × C
  unwatch : Nat → C → C
  encodedIdentity : Json → Except String String
  parseJson : String → Option Json
  storeStatus : Answer C Unit
  initializeStream : Nat → Answer C Unit
  settleReady : Answer C Announced
  pendingSettlement : Answer C Unit
  cleanupDelivery : Nat → Answer C Unit
  freezeBatch : Answer C Unit
  acknowledgeBatch : BatchAcknowledgement → Answer C Announced
  applyNextDelivery : DeliveryQueue → Nat → Answer C Announced
  activeDeliveryPlans : Answer C Unit

namespace ClientRuntime

/-! ## Tasks and the open transaction -/

structure Queued where
  requestId : String
  command : Command
  seq : Nat

structure Tasks where
  routed : List String := []
  queue : List Queued := []
  initialReads : List Queued := []

/-- What a resolution made in a transaction announces at its commit. -/
inductive Resolved where
  | completed (completion : Completion)
  | retried (key : String)

structure DeferredMutation where
  name : String
  version : Nat
  operations : List Axton.Operation := []

structure LocalCallback where
  companionId : String
  effectId : String
  requestId : String
  call : SubmittedCall
  deferred : Option DeferredMutation
  failure : Option String := none
  finishing : Option (Bool × Option String × Option Json) := none

structure Scope where
  token : String
  failure : Option String
  calls : Nat
  resolved : Nat

structure Continuation where
  requestId : String
  transactionId : String
  scope : Option String
  companionId : Option String
  command : TransactionCommand

/-- `owner` is the request of the `transaction` task (`TransactionOwner::Application`). -/
structure Transaction where
  owner : String
  transactionId : String
  effectId : String
  scopes : List Scope := []
  failure : Option String := none
  structural : Option String := none
  finishing : Option (Bool × Option String) := none
  lane : List Continuation := []
  localCallback : Option LocalCallback := none
  calls : List String := []
  resolved : List Resolved := []

/-! ## Effects and direct calls -/

inductive EffectKind where
  | callback
  | refreshAuth
  | directHttp (requestId : String)
  | directTimer (requestId : String)
  | prerequisite (key : String)
  | prerequisiteTimer
deriving DecidableEq

inductive Ready where
  | applyDirect (requestId response : String)
  | prerequisiteOutcome (key : String) (error : Option String)
deriving DecidableEq

/-- `waiters` are the requests of `Waiter::Direct`. -/
structure Connection where
  timeout : Nat
  refresh : Bool
  paused : Bool := false
  refreshing : Option String := none
  waiters : List String := []

structure DirectCall where
  callId : String
  body : String
  http : Option String
  timer : Option String
  retried : Bool := false
  applying : Bool := false
  fetch : Bool

structure Backoff where
  attempts : Nat
  due : Nat

structure Prerequisites where
  handlers : List String := []
  dirty : Bool := false
  running : Option (String × String) := none
  backoff : Table String Backoff := []
  timer : Option (String × Nat) := none

/-! ## Observers -/

structure RunWaiter where
  run : Nat
  requestId : String

structure Registration where
  stream : String
  observer : Option String := none
  ready : Bool := false
  run : Option BootstrapState := none
  waiters : List RunWaiter := []
  published : Option Json := none

/-- One edit of a delta delivery: `deleteCount` rows from `index` give way to `rows`. -/
structure Splice where
  index : Nat
  deleteCount : Nat
  rows : List Json
deriving DecidableEq

structure Watch where
  model : String
  filter : Json
  rows : List Json
  published : Bool := false
  generation : Nat
  retryFull : Bool := false
  deltaDelivery : Bool
  version : Nat := 0
  splices : Option (List Splice) := none

structure SqlWatch where
  sql : String
  parameters : List Json
  changes : Option Nat
  rows : List Json
  published : Bool := false

structure UnsentObserver where
  view : UnsentView
  snapshot : Json
  published : Bool := false

inductive Lifecycle where
  | opened | closing | closed
deriving DecidableEq, Repr

end ClientRuntime

/-- One open client and everything the runtime decided about it. -/
structure ClientRuntime (C : Type) where
  client : C
  live : Bool := false
  catchingUp : Bool := false
  connection : Option ClientRuntime.Connection := none
  tasks : ClientRuntime.Tasks := {}
  transaction : Option ClientRuntime.Transaction := none
  effects : Table String ClientRuntime.EffectKind := []
  ready : List ClientRuntime.Ready := []
  directs : Table String ClientRuntime.DirectCall := []
  prerequisites : ClientRuntime.Prerequisites := {}
  stale : Bool := false
  registrations : Table Nat ClientRuntime.Registration := []
  watches : Table Nat ClientRuntime.Watch := []
  sqlWatches : Table Nat ClientRuntime.SqlWatch := []
  unsent : Table Nat ClientRuntime.UnsentObserver := []
  admitted : Nat := 0
  laneSince : Option Nat := none
  issued : Nat := 0
  capabilityNamespace : Option String
  events : List Bridge.Event := []
  lifecycle : ClientRuntime.Lifecycle := .opened

namespace ClientRuntime

variable {C : Type}

/-- `ClientRuntime::new` (mod.rs:73); the namespace is a fresh UUID. -/
def new (client : C) (namespaceId : String) : ClientRuntime C where
  client := client
  capabilityNamespace := some namespaceId

/-! ## Identities and outcomes -/

def maxU64 : Nat := 2 ^ 64 - 1

/-- `capability_token` (mod.rs:122). -/
def capabilityToken (r : ClientRuntime C) (tag : String) (id : Nat) : String :=
  match r.capabilityNamespace with
  | some ns => ns ++ ":" ++ tag ++ toString id
  | none => tag ++ toString id

/-- `issue` (mod.rs:128). -/
def issue (r : ClientRuntime C) : Except String Nat × ClientRuntime C :=
  if r.issued < maxU64 then (.ok (r.issued + 1), { r with issued := r.issued + 1 })
  else (.error "runtime identifiers exhausted", r)

def push (r : ClientRuntime C) (e : Bridge.Event) : ClientRuntime C := { r with events := r.events ++ [e] }

/-- `settle` (mod.rs:158): the only place a `taskCompleted` is queued. -/
def settle (r : ClientRuntime C) (requestId : String) (outcome : Except String Json) (details : Option Json) :
    ClientRuntime C :=
  { r with tasks := { r.tasks with routed := r.tasks.routed.filter (· ≠ requestId) } }.push (match outcome with
    | .ok value => .taskCompleted requestId true value none none
    | .error e => .taskCompleted requestId false .null (some e) details)

def closedRegistration : List Char := "subscription.closed:".toList

/-- `complete` (mod.rs:138). -/
def complete (r : ClientRuntime C) (requestId : String) (outcome : Except String Json) : ClientRuntime C :=
  match outcome with
  | .ok value => r.settle requestId (.ok value) none
  | .error e => r.settle requestId (.error e)
      (if closedRegistration <:+: e.toList then some (.ofEntries [("code", .str "subscription.closed")]) else none)

/-- `fail` (mod.rs:151). -/
def fail (r : ClientRuntime C) (requestId error : String) (details : Json) : ClientRuntime C :=
  r.settle requestId (.error error) (some details)

def report (r : ClientRuntime C) (d : Bridge.Diagnostic) : ClientRuntime C := r.push (.report d)

/-- `error_status` (mod.rs:205). -/
def errorStatus (r : ClientRuntime C) (message : String) (status : Option Nat) : ClientRuntime C :=
  r.report (.error message status)

def error (r : ClientRuntime C) (message : String) : ClientRuntime C := r.errorStatus message none

/-- A step of the runtime that answers or fails; what it did before it failed stays done. -/
abbrev Attempt (C α : Type) := Except String α × ClientRuntime C

/-- Go on after success (`?`). -/
def Attempt.andThen {α β : Type} (x : Attempt C α) (f : α → ClientRuntime C → Attempt C β) : Attempt C β :=
  match x with
  | (.ok a, r) => f a r
  | (.error e, r) => (.error e, r)

/-- Run a call of the client. -/
def ask {α : Type} (r : ClientRuntime C) (call : Answer C α) : Attempt C α :=
  ((call r.client).1, { r with client := (call r.client).2 })

end ClientRuntime

end Axton
