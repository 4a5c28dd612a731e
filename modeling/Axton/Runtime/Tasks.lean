import Axton.Runtime.Transactions

/-!
# Tasks: admission, scheduling and close

Model of `crates/client/src/runtime/tasks.rs`, of `execute` (commands.rs) and of the Store worker's entry
(mod.rs:216).

| here | there |
|------|-------|
| `receive`, `step`, `unit`, `ordinaryUnit`, `laneUnit`, `close` | the methods of the same names |
| `mustWait` | the wait for the initial content (tasks.rs:229-251) |
| `taskOutcome` | the match of `ordinary_unit` (tasks.rs:253-316), less the tasks that park |
| `storeWorker` | `store_worker05`; the report itself is the subject of `Client.Worker` |
-/

namespace Axton

open Bridge

namespace ClientRuntime

section
variable {C : Type} (api : ClientApi C) (P : Platform)

/-- `execute` (commands.rs:18). -/
def executeTask (r : ClientRuntime C) : Command → Attempt C Json
  | .read q => r.ask (api.read q)
  | .inspect q => r.ask (api.inspect q)
  | .direct operation => (r.ask (api.direct operation)).andThen fun _ r => (.ok .null, r)
  | .submitAction name version args store =>
    if store.isSome then (.error "Mutation does not accept store", r)
    else (r.ask (api.submitMutation name version args)).andThen fun call r => (.ok (submission call), r)
  | .readiness key state => (r.ask (api.setReadiness key state)).andThen fun _ r => (.ok .null, r)
  | .drop ordinal => r.ask (api.dropMutation ordinal)
  | .dismiss ordinal => (r.ask (api.dismissRejection ordinal)).andThen fun _ r => (.ok .null, r)
  | .retryTasks keys => (r.ask (api.retryTasks keys)).andThen fun _ r => (.ok .null, r)
  | .discard ordinal => r.ask (api.discardMutation ordinal)
  | .malformed e => (.error e, r)
  | _ => (.error "a runtime lifecycle is not a client command", r)

/-- `reset_store` (tasks.rs:340): the work of the old incarnation is cancelled. -/
def resetStore (r : ClientRuntime C) (discardPending : Bool) : Attempt C Json :=
  (r.ask (api.resetStore discardPending)).andThen fun reset r =>
    let r := (r.failDirects .replaced).rebuiltPrerequisites
    let r := { r with stale := true }.rebuiltObservers.releaseInitialReads false
    let r := { r with live := false, catchingUp := false }
    (.ok reset.json, reset.abandonedCalls.foldl (fun r abandoned => r.push (.callCompleted abandoned.1 (.ofEntries [
      ("status", .str "failed"), ("code", .str "abandoned"),
      ("execution", .str (if abandoned.2 then "unknown" else "rejected"))]))) r)

/-- `seam_completions` (tasks.rs:366). -/
def seamCompletions (r : ClientRuntime C) (value : Json) : ClientRuntime C :=
  ((value.index "completions").asArray.getD []).foldl (fun r c =>
    r.push (.callCompleted ((c.index "callId").asStr.getD "") (c.index "outcome"))) r

/-- A task that answers at once. -/
def taskOutcome (r : ClientRuntime C) : Command → Attempt C Json
  | .connect timeout refresh => r.connect timeout (refresh.getD false)
  | .connection event => r.control event
  | .readiness key state => executeTask api (r.prerequisiteReadiness key) (.readiness key state)
  | .retryTasks keys =>
    -- A retry that did not commit leaves the backoff alone.
    (executeTask api r (.retryTasks keys)).andThen fun v r => (.ok v, keys.foldl prerequisiteReadiness r)
  | .unsentWatch view => unsentWatch api r view
  | .resetStore discardPending => resetStore api r (discardPending.getD false)
  | .streamSubscribe stream => subscribeStream api r stream
  | .watch model spec => watch api r model spec
  | .watchSnapshot observerId => watchSnapshot r observerId
  | .watchSql sql parameters => watchSql api r sql parameters
  | .unwatch observerId => unwatch api (unwatchUnsent r observerId) observerId
  | command => executeTask api r command

/-- What the command of a task came to; nothing while the task waits (tasks.rs:253-316). -/
def runTask (r : ClientRuntime C) (requestId : String) : Command → Option (Except String Json) × ClientRuntime C
  | .invoke name version args store => invoke api P r requestId name version args store
  | .fetch model version identity store => (none, fetch api P r requestId model version identity store)
  | .streamBootstrap stream subscriptionId => bootstrapStream api r requestId stream subscriptionId
  | command => ((taskOutcome api r command).map some id)

/-- A read a connected runtime holds back until the schema and the initial content are there. -/
def mustWait (r : ClientRuntime C) (command : Command) : Bool × ClientRuntime C :=
  let store : Option (Option Json) := match command with
    | .invoke _ _ _ store | .fetch _ _ _ store => some store
    | _ => none
  match r.connection, store with
  | some _, some store =>
    let (pending, r) := r.ask api.pendingSchema
    let schemaPending := match pending with
      | .ok p => p
      | .error _ => false
    if store.all (· = .bool true) then
      let (start, r) := r.ask api.startCursor
      let initialPending := match start with
        | .ok c => c.isNone
        | .error _ => false
      (schemaPending || initialPending, r)
    else (schemaPending, r)
  | _, _ => (false, r)

def isSeam : Command → Bool
  | .drop _ | .discard _ => true
  | _ => false

/-- The completions a settled seam announces. -/
def announceSeam (r : ClientRuntime C) (command : Command) (outcome : Option (Except String Json)) : ClientRuntime C :=
  match outcome with
  | some (.ok value) => if isSeam command then seamCompletions r value else r
  | _ => r

/-- What follows a task that ran: the commit it made is observed, its completions are announced, the lanes
wake, and its outcome is answered (tasks.rs:317-334). -/
def afterTask (r : ClientRuntime C) (generation : Nat) (requestId : String) (command : Command)
    (outcome : Option (Except String Json)) : ClientRuntime C :=
  let r := wakeSince api (announceSeam (committedSince api r generation) command outcome) generation
  match outcome with
  | some outcome => r.complete requestId outcome
  | none => r

/-- A task that need not wait runs. -/
def dispatchTask (r : ClientRuntime C) (task : Queued) : ClientRuntime C :=
  match task.command with
  | .transaction => openTransaction api r task.requestId
  | command =>
    let generation := api.generation r.client
    let (outcome, r) := runTask api P r task.requestId command
    afterTask api r generation task.requestId command outcome

/-- `ordinary_unit` (tasks.rs:221). -/
def ordinaryUnit (r : ClientRuntime C) : ClientRuntime C :=
  match r.tasks.queue with
  | [] => r
  | task :: queue =>
    let (waits, r) := mustWait api { r with tasks := { r.tasks with queue } } task.command
    if waits then
      { r with tasks := { r.tasks with initialReads := r.tasks.initialReads ++ [{ task with seq := r.admitted }] } }
    else dispatchTask api P r task

/-- `lane_ready` (tasks.rs:163). -/
def laneReady (r : ClientRuntime C) : Bool := !r.ready.isEmpty || r.prerequisites.isReady

/-- A ready continuation runs. -/
def runReady (r : ClientRuntime C) : Ready → ClientRuntime C
  | .applyDirect requestId response => applyRead api r requestId response
  | .prerequisiteOutcome key error => prerequisiteOutcome api r key error

/-- `lane_unit` (tasks.rs:172). -/
def laneUnit (r : ClientRuntime C) (now : Nat) : ClientRuntime C :=
  match r.ready with
  | ready :: rest =>
    wakeSince api (runReady api { r with ready := rest } ready) (api.generation r.client)
  | [] => if r.prerequisites.isReady then prerequisiteTurn api r now else r

/-- `unit` (tasks.rs:129). -/
def unit (r : ClientRuntime C) (now : Nat) : Bool × ClientRuntime C :=
  if r.transaction.isSome then stepTransaction api r
  else
    let since := if r.laneReady then some (r.laneSince.getD r.admitted) else none
    let r := { r with laneSince := since }
    match r.tasks.queue.head?.map (·.seq), r.laneSince with
    | none, none => (false, r)
    | some _, none => (true, ordinaryUnit api P r)
    | some head, some since =>
      if head ≤ since then (true, ordinaryUnit api P r)
      else (true, laneUnit api { r with laneSince := none } now)
    | none, some _ => (true, laneUnit api { r with laneSince := none } now)

/-- Every outstanding effect is cancelled. -/
def cancelAll (r : ClientRuntime C) : ClientRuntime C :=
  r.effects.sorted.foldl (fun r e => r.push (.cancelEffect e.1)) { r with effects := [] }

/-- The session of an open transaction is rolled back at close. -/
def closeSession (r : ClientRuntime C) : ClientRuntime C :=
  match r.ask api.rollbackSession with
  | (.ok _, r) => r
  | (.error e, r) => r.error ("rollback at close failed: " ++ e)

/-- The transaction's part of `close` (tasks.rs:377-407): its calls are rolled back, its owner, its waiting
submission and its queued commands are answered. -/
def closeTransaction (r : ClientRuntime C) : ClientRuntime C :=
  match r.transaction with
  | none => cancelAll r
  | some t =>
    let r := cancelAll (closeSession api { r with transaction := none })
    let r := (r.callTransitions t.calls .rolledBack).complete t.owner (.error clientClosed)
    let r := t.localCallback.toList.foldl (fun r l => r.complete l.requestId (.error clientClosed)) r
    r.closeCommands t.lane clientClosed

/-- Every queued task is answered. -/
def closeTasks (r : ClientRuntime C) : ClientRuntime C :=
  (r.tasks.queue ++ r.tasks.initialReads).foldl (fun r task => r.complete task.requestId (.error clientClosed))
    { r with tasks := { r.tasks with queue := [], initialReads := [] } }

/-- The connection and the scheduler end. -/
def closeLanes (r : ClientRuntime C) : ClientRuntime C := { r.closePrerequisites with ready := [], connection := none }

/-- `close` (tasks.rs:376). -/
def close (r : ClientRuntime C) : ClientRuntime C :=
  let r := closeTasks (closeTransaction api r)
  let r := closeUnsent (closeObservers api (closeLanes (r.failDirects .unavailable)))
  { r with lifecycle := .closed }.push .runtimeClosed

/-- `step` (tasks.rs:113). -/
def step (r : ClientRuntime C) (now : Nat) : Bool × ClientRuntime C :=
  match r.lifecycle with
  | .closed => (false, r)
  | .closing => (true, close api r)
  | .opened =>
    let (ran, r) := unit api P r now
    (ran, if ran then publish api r else r)

/-- `admit` (tasks.rs:359): an id that is still routed is a protocol violation. -/
def admitRequest (r : ClientRuntime C) (requestId : String) : Bool × ClientRuntime C :=
  if r.tasks.routed.contains requestId then (false, r.report (.protocol ("duplicate request id " ++ requestId)))
  else (true, { r with tasks := { r.tasks with routed := r.tasks.routed ++ [requestId] } })

/-- `receive` (tasks.rs:39), whether the input was admitted; a runtime that closes refuses it. -/
def receive (r : ClientRuntime C) (input : Input) (now entropy : Nat) : Bool × ClientRuntime C :=
  if r.lifecycle ≠ .opened then (false, r)
  else match input with
    | .task requestId command => match r.admitRequest requestId with
      | (false, r) => (true, r)
      | (true, r) =>
        let admitted := min (r.admitted + 1) maxU64
        (true, { r with
          admitted
          tasks := { r.tasks with queue := r.tasks.queue ++ [⟨requestId, command, admitted⟩] } })
    | .transactionCommand requestId transactionId scope companionId command => match r.admitRequest requestId with
      | (false, r) => (true, r)
      | (true, r) => (true, r.continueTransaction ⟨requestId, transactionId, scope, companionId, command⟩)
    | .callbackResult effectId transactionId companionId ok error input =>
      (true, r.callbackResult effectId transactionId companionId ok error input)
    | .effectResult effectId outcome =>
      let r := effectResult api.parseJson r effectId outcome now entropy
      let r := if r.laneReady && r.laneSince.isNone then { r with laneSince := some r.admitted } else r
      (true, r.publishStatuses)
    | .close => (true, { r with lifecycle := .closing })

/-! ## The Store worker -/

/-- `settled` (lanes.rs:72). -/
def settled (r : ClientRuntime C) (report : Announced) : ClientRuntime C :=
  let r := if report.reports.isEmpty then r else r.report (.records report.reports)
  report.completions.foldl (fun r c => r.push (.callCompleted c.callId c.outcome)) r

/-- The work of one Store command (mod.rs:247-313). -/
def storeWork (r : ClientRuntime C) : StoreCommand → Attempt C Unit
  | .networkState live catchingUp =>
    ({ r with live, catchingUp }.publishStatuses).ask api.storeStatus
  | .initializeStream head =>
    (r.ask (api.initializeStream head)).andThen fun _ r => (r.releaseInitialReads true).ask api.storeStatus
  | .needs =>
    (r.ask api.settleReady).andThen fun report r =>
      let r := settled r report
      let status : Attempt C Unit := if report.completions.isEmpty then (.ok (), r) else r.ask api.storeStatus
      status.andThen fun _ r => (r.ask api.pendingSchema).andThen fun _ r => r.ask api.pendingSettlement
  | .cleanup now => r.ask (api.cleanupDelivery now)
  | .snapshot => r.ask api.storeStatus
  | .freeze => r.ask api.freezeBatch
  | .acknowledge receipt =>
    (r.ask (api.acknowledgeBatch receipt)).andThen fun report r => (settled r report).ask api.storeStatus
  | .apply _ queue now =>
    (r.ask (api.applyNextDelivery queue now)).andThen fun report r =>
      ((settled r report).ask api.pendingSchema).andThen fun pending r =>
        let r := if pending then r else r.releaseInitialReads true
        (r.ask api.storeStatus).andThen fun _ r => r.ask api.activeDeliveryPlans

/-- `store_worker05` (mod.rs:216). A failed command ends before its commit is observed, and a change of the
network state publishes only the statuses. -/
def storeWorker (r : ClientRuntime C) (command : StoreCommand) : Attempt C Unit :=
  if r.transaction.isSome then (.error "Store worker transaction active", r)
  else
    let generation := api.generation r.client
    match command, storeWork api r command with
    | .networkState _ _, x => x
    | _, (.error e, r) => (.error e, r)
    | _, (.ok _, r) => (.ok (), publish api (committedSince api r generation))

/-- A fenced command (mod.rs:221): obsolete unless its fence is current and names the client's context. -/
def storeWorkerGuarded (r : ClientRuntime C) (current : Bool) (context : RequestContext) (command : StoreCommand) :
    Attempt C Unit :=
  if !current then (.ok (), r)
  else (r.ask api.requestContext).andThen fun active r =>
    if active ≠ context then (.ok (), r) else storeWorker api r command

end

end ClientRuntime

end Axton
