import Axton.Runtime.State
import Axton.Client.Query

/-!
# Observers

Model of `crates/client/src/runtime/observers.rs`, `sql_watches.rs` and `unsent.rs` (its observers): the
subscription statuses and the tasks that wait on a Bootstrap run, the watches of a model, of a SQL statement
and of the unsent work, and what is published of them at the end of a unit.

| here | there |
|------|-------|
| `observeRun`, `reconcileRegistrations`, `closeRegistration` | the methods of the same names |
| `Watch.replace`, `Watch.updateKeys` | `replace`, `update_keys` (observers.rs:92, 107) |
| `refreshWatch` | the body of the loop of `publish` (observers.rs:487-577) |
| `publish` | `publish` (observers.rs:475) |
-/

namespace Axton

open Bridge

namespace ClientRuntime

/-! ## Registrations -/

/-- `rank` (observers.rs:178). -/
def rank : BootstrapPhase → Nat
  | .notRequested => 0
  | .requested => 1
  | .loading => 2
  | .catchingUp => 3
  | .complete | .failed => 4

namespace Registration

def phase (g : Registration) : BootstrapPhase → String
  | .notRequested => "not-requested"
  | .requested => if g.ready then "loading" else "waiting-for-initialization"
  | .loading => "loading"
  | .catchingUp => "catching-up"
  | .complete => "complete"
  | .failed => "failed"

/-- `bootstrap` (observers.rs:203). -/
def bootstrap (g : Registration) : Json :=
  match g.run with
  | none => .ofEntries [("phase", .str "not-requested"), ("error", .null)]
  | some run => .ofEntries [("phase", .str (g.phase run.state)),
      ("error", .optional (fun e : BootstrapError => .ofEntries [("code", .str e.code), ("message", .str e.message)])
        run.error)]

def status (g : Registration) (connection : String) : Json := .ofEntries [
  ("active", .bool (connection ≠ "stopped")),
  ("initialization", .str (if g.ready then "ready" else "pending")),
  ("connection", .str connection),
  ("bootstrap", g.bootstrap)]

def snapshot (g : Registration) (id : Nat) (status : Json) : Json := .ofEntries [
  ("kind", .str "subscription"), ("stream", .str g.stream), ("subscriptionId", .nat id), ("status", status)]

/-- The terminal snapshot of a registration. -/
def closedSnapshot (g : Registration) (id : Nat) : Json :=
  (g.snapshot id (g.status "stopped")).setField "closed" (.bool true)

end Registration

def superseded : String := "bootstrap.superseded"
def clientClosed : String := "client_closed"
def subscriptionClosed : String := "subscription.closed"

/-- What a committed run came to, when it ended (observers.rs:343). -/
def runOutcome (state : BootstrapState) : Option (Except (String × String) Unit) :=
  match state.state with
  | .complete => some (.ok ())
  | .failed => some (.error (match state.error with
    | some e => (e.code, e.message)
    | none => ("bootstrap.failed", "the bootstrap of " ++ state.stream ++ " failed")))
  | _ => none

/-- Whether a waiter's run ended with `state`. -/
def RunWaiter.settles (state : BootstrapState) (w : RunWaiter) : Bool :=
  decide (w.run = state.run) && (runOutcome state).isSome

/-- `observe_run` (observers.rs:333). -/
def observeRun {C : Type} (r : ClientRuntime C) (state : BootstrapState) : ClientRuntime C :=
  match r.registrations.get state.subscriptionId with
  | none => r
  | some g =>
    if g.stream ≠ state.stream then r
    else
      let past := g.waiters.filter (·.run < state.run)
      let later := g.waiters.filter fun w => !decide (w.run < state.run)
      let settled := later.filter (RunWaiter.settles state)
      let newer := g.run.all fun known =>
        decide (known.run < state.run) || (decide (state.run = known.run) && decide (rank known.state ≤ rank state.state))
      let g' := { g with
        waiters := later.filter fun w => !RunWaiter.settles state w
        run := if newer then some state else g.run }
      let r := { r with registrations := r.registrations.set state.subscriptionId g' }
      let r := settled.foldl (fun r w => match runOutcome state with
        | some (.error (code, message)) =>
          r.fail w.requestId message (.ofEntries [("code", .str code), ("message", .str message)])
        | _ => r.complete w.requestId (.ok .null)) r
      past.foldl (fun r w => r.fail w.requestId superseded (.ofEntries [("code", .str superseded)])) r

/-- `close_registration` (observers.rs:419). -/
def closeRegistration {C : Type} (r : ClientRuntime C) (id : Nat) (code : String) : ClientRuntime C :=
  match r.registrations.get id with
  | none => r
  | some g =>
    let r := { r with registrations := r.registrations.remove id }
    let r := g.waiters.foldl (fun r w => r.fail w.requestId code (.ofEntries [("code", .str code)])) r
    match g.observer with
    | some observer => r.push (.observerChanged observer (g.closedSnapshot id))
    | none => r

/-- `rebuilt_observers` (observers.rs:409). -/
def rebuiltObservers {C : Type} (r : ClientRuntime C) : ClientRuntime C :=
  r.registrations.sorted.foldl (fun r e => r.closeRegistration e.1 subscriptionClosed) r

/-- `connection_status` (observers.rs:437). -/
def connectionStatus {C : Type} (r : ClientRuntime C) : String :=
  match r.connection with
  | none => "offline"
  | some c =>
    if c.paused then "offline"
    else if !r.live then "connecting"
    else if r.catchingUp then "catching-up"
    else "live"

/-- Publish the status of one registration when it changed. -/
def publishStatus {C : Type} (status : String) (r : ClientRuntime C) (id : Nat) : ClientRuntime C :=
  match r.registrations.get id with
  | none => r
  | some g => match g.observer with
    | none => r
    | some observer =>
      if g.published = some (g.status status) then r
      else
        { r with registrations := r.registrations.set id { g with published := some (g.status status) } }.push
          (.observerChanged observer (g.snapshot id (g.status status)))

/-- `publish_statuses` (observers.rs:449). -/
def publishStatuses {C : Type} (r : ClientRuntime C) : ClientRuntime C :=
  (r.registrations.sorted.map (·.1)).foldl (publishStatus r.connectionStatus) r

/-- Note whether the starting boundary of a registration exists. -/
def markReady {C : Type} (r : ClientRuntime C) (id : Nat) (ready : Bool) : ClientRuntime C :=
  match r.registrations.get id with
  | none => r
  | some g => { r with registrations := r.registrations.set id { g with ready } }

section
variable {C : Type} (api : ClientApi C)

/-- One registration of `reconcile_registrations`: it follows the durable subscription of its stream. -/
def reconcileRegistration (r : ClientRuntime C) (id : Nat) (stream : String) : ClientRuntime C :=
  match r.ask (api.subscriptionState stream) with
  | (.error e, r) => r.error e
  | (.ok none, r) => r.closeRegistration id subscriptionClosed
  | (.ok (some state), r) =>
    if state.subscriptionId ≠ id then r.closeRegistration id subscriptionClosed
    else
      match (markReady r id state.startingCursor.isSome).ask (api.bootstrapState stream id) with
      | (.ok run, r) => r.observeRun run
      | (.error _, r) => r

/-- `reconcile_registrations` (observers.rs:383). -/
def reconcileRegistrations (r : ClientRuntime C) : ClientRuntime C :=
  r.registrations.sorted.foldl (fun r e => reconcileRegistration api r e.1 e.2.stream) r

/-- `committed_since` (mod.rs:188). -/
def committedSince (r : ClientRuntime C) (generation : Nat) : ClientRuntime C :=
  if api.generation r.client = generation then r else reconcileRegistrations api { r with stale := true }

/-- The registration of a subscription, made when there is none (`entry().or_insert_with`). -/
def ensureRegistration (r : ClientRuntime C) (id : Nat) (stream : String) : ClientRuntime C :=
  if (r.registrations.get id).isSome then r
  else { r with registrations := r.registrations.set id { stream } }

/-- Name the observer of a registration and read its boundary. -/
def nameObserver (r : ClientRuntime C) (id : Nat) (observer : String) (ready : Bool) : ClientRuntime C :=
  match r.registrations.get id with
  | none => r
  | some g => { r with registrations := r.registrations.set id { g with observer := some observer, ready } }

/-- The committed run of a subscription, observed; a failed read is reported. -/
def observeStored (r : ClientRuntime C) (stream : String) (id : Nat) : ClientRuntime C :=
  match r.ask (api.bootstrapState stream id) with
  | (.ok run, r) => r.observeRun run
  | (.error e, r) => r.error e

/-- `subscribe_stream` (observers.rs:241). -/
def subscribeStream (r : ClientRuntime C) (stream : String) : Attempt C Json :=
  (r.ask (api.subscriptionState stream)).andThen fun found r =>
    match found with
    | none => (.error "foreign Stream", r)
    | some state =>
      let id := state.subscriptionId
      let known := (r.registrations.get id).isSome
      let named : Attempt C String := match (r.registrations.get id).bind (·.observer) with
        | some observer => (.ok observer, r)
        | none => Attempt.andThen r.issue fun n r => (.ok (toString n), r)
      named.andThen fun observer r =>
        let r := nameObserver (ensureRegistration r id state.stream) id observer state.startingCursor.isSome
        let r := if known then r else observeStored api r state.stream id
        (.ok (.ofEntries [("state", state.json), ("observerId", .str observer)]), r)

/-- Park a task on the run its registration answered with. -/
def parkWaiter (r : ClientRuntime C) (id run : Nat) (requestId : String) : ClientRuntime C :=
  match r.registrations.get id with
  | none => r
  | some g => { r with
      registrations := r.registrations.set id { g with waiters := g.waiters ++ [⟨run, requestId⟩] } }

/-- `bootstrap_stream` (observers.rs:286): nothing while the task waits. -/
def bootstrapStream (r : ClientRuntime C) (requestId stream : String) (subscriptionId : Nat) :
    Option (Except String Json) × ClientRuntime C :=
  let generation := api.generation r.client
  let (answered, r) := r.ask (api.bootstrapState stream subscriptionId)
  let r := committedSince api r generation
  match answered with
  | .error e => (some (.error e), r)
  | .ok state =>
    let id := state.subscriptionId
    let r := ensureRegistration r id state.stream
    if state.state = .complete then (some (.ok .null), r.observeRun state)
    else
      let r := (parkWaiter r id state.run requestId).observeRun state
      (none, observeStored api r state.stream id)

end

/-! ## Model watches -/

namespace Watch

/-- `replace` (observers.rs:92). -/
def replace (w : Watch) (rows : List Json) : Watch :=
  if w.rows = rows then w else { w with rows, published := false, splices := none }

/-- Where a record stands in the cache. -/
def find (m : ModelDescriptor) (rows : List Json) (identity : Json) : Except Nat Nat :=
  Search.binarySearchBy (fun old => compareIdentity m old identity) rows

/-- An update that changes the cache as it stands. -/
def differs (m : ModelDescriptor) (rows : List Json) (u : Json × Option Json) : Bool :=
  match find m rows u.1 with
  | .ok i => u.2 ≠ rows[i]?
  | .error _ => u.2.isSome

/-- Note an edit for a delta delivery, unless the next one is complete anyway. -/
def note (w : Watch) (s : Splice) : Watch :=
  if w.deltaDelivery then { w with splices := w.splices.map (· ++ [s]) } else w

/-- One edit of `update_keys` (observers.rs:132-165). -/
def applyEdit (m : ModelDescriptor) (w : Watch) (u : Json × Option Json) : Watch :=
  match find m w.rows u.1, u.2 with
  | .ok i, some row => { w with rows := w.rows.set i row }.note ⟨i, 1, [row]⟩
  | .ok i, none => { w with rows := w.rows.eraseIdx i }.note ⟨i, 1, []⟩
  | .error i, some row => { w with rows := w.rows.insertIdx i row }.note ⟨i, 0, [row]⟩
  | .error _, none => w

/-- `update_keys` (observers.rs:107). -/
def updateKeys (m : ModelDescriptor) (w : Watch) (updates : List (Json × Option Json)) : Watch :=
  let edits := updates.filter (differs m w.rows)
  if edits.isEmpty then w
  else { edits.foldl (applyEdit m) w with published := false }

end Watch

def Splice.json (s : Splice) : Json := .ofEntries [
  ("index", .nat s.index), ("deleteCount", .nat s.deleteCount), ("rows", .arr s.rows)]

/-- What a publication says of a watch, and the watch after it (observers.rs:587-605). -/
def Watch.publication (w : Watch) : Json × Watch :=
  if w.deltaDelivery then
    let w' := { w with published := true, version := w.version + 1, splices := some [] }
    match w.splices with
    | some splices => (.ofEntries [("kind", .str "watch"), ("protocol", .str "splice-v1"),
        ("baseVersion", .nat w.version), ("version", .nat (w.version + 1)),
        ("splices", .arr (splices.map Splice.json))], w')
    | none => (.ofEntries [("kind", .str "watch"), ("protocol", .str "splice-v1"),
        ("version", .nat (w.version + 1)), ("rows", .arr w.rows)], w')
  else (.ofEntries [("kind", .str "watch"), ("rows", .arr w.rows)], { w with published := true })

/-- `observer_id.parse::<u64>()`. -/
def parseU64 (s : String) : Option Nat :=
  let digits := match s.toList with
    | '+' :: cs => cs
    | cs => cs
  if digits.isEmpty || !digits.all Char.isDigit then none
  else
    let n := digits.foldl (fun n c => n * 10 + (c.toNat - '0'.toNat)) 0
    if n ≤ maxU64 then some n else none

section
variable {C : Type} (api : ClientApi C)

/-- `watch` (observers.rs:624). -/
def watch (r : ClientRuntime C) (model : String) (spec : Option WatchSpec) : Attempt C Json :=
  let delivery : Except String Bool := match spec.bind (·.delivery) with
    | none => .ok false
    | some d => if d = "splice-v1" then .ok true else .error "unsupported watch delivery"
  match delivery with
  | .error e => (.error e, r)
  | .ok deltaDelivery =>
    let filter := match spec.bind (·.filter) with
      | some f => if f.isNull then .obj [] else f
      | none => .obj []
    (r.ask (api.query model filter)).andThen fun rows r =>
      Attempt.andThen r.issue fun id r =>
        (.ok (.ofEntries [("observerId", .str (toString id))]), { r with
          watches := r.watches.set id {
            model, filter, rows, deltaDelivery
            generation := api.generation r.client } })

/-- `watch_snapshot` (observers.rs:664). -/
def watchSnapshot (r : ClientRuntime C) (observerId : String) : Attempt C Json :=
  match (parseU64 observerId).bind fun id => (r.watches.get id).map (id, ·) with
  | none => (.error "unknown Model watch", r)
  | some (id, w) =>
    (.ok .null, { r with watches := r.watches.set id { w with splices := none, published := false } })

/-- `unwatch_sql` (sql_watches.rs:45). -/
def unwatchSql (r : ClientRuntime C) (id : Nat) : ClientRuntime C :=
  match r.sqlWatches.get id with
  | none => r
  | some w => { r with
      sqlWatches := r.sqlWatches.remove id
      client := match w.changes with
        | some watcher => api.unwatch watcher r.client
        | none => r.client }

/-- `unwatch` (observers.rs:679). -/
def unwatch (r : ClientRuntime C) (observerId : String) : Attempt C Json :=
  (.ok .null, match parseU64 observerId with
    | none => r
    | some id =>
      if (r.watches.get id).isSome then { r with watches := r.watches.remove id } else unwatchSql api r id)

/-- The rows read for some keys, by encoded identity (observers.rs:531-547). -/
def matchingRows (m : ModelDescriptor) (rows : List Json) : Except String (Table String Json) :=
  rows.foldlM (fun t row => do
    let key ← api.encodedIdentity (.ofEntries (m.identity.map fun f => (f, row.index f)))
    return t.set key row) []

/-- What the keys read now, each row given out once (observers.rs:548-561). -/
def keyUpdates : List RecordKey → Table String Json → Except String (List (Json × Option Json))
  | [], _ => .ok []
  | k :: ks, matching => do
    let key ← api.encodedIdentity k.identity
    let rest ← keyUpdates ks (matching.remove key)
    return (k.identity, matching.get key) :: rest

/-- A refresh that could not be made: it is reported, and the next one reads everything. -/
def refreshFailed (r : ClientRuntime C) (id : Nat) (w : Watch) (e : String) : ClientRuntime C :=
  { r with watches := r.watches.set id { w with retryFull := true } }.error e

/-- The watch after a refresh. -/
def refreshed (r : ClientRuntime C) (id : Nat) (w : Watch) : ClientRuntime C :=
  { r with watches := r.watches.set id { w with generation := api.generation r.client, retryFull := false } }

/-- One watch of `publish`: commits that touched its model, or a failed refresh before them, re-run it. -/
def refreshWatch (changes : Table String ModelChange) (committed : Bool) (r : ClientRuntime C) (id : Nat) :
    ClientRuntime C :=
  match r.watches.get id with
  | none => r
  | some w =>
    if w.generation = api.generation r.client then r
    else if (changes.get w.model).isNone && !(w.retryFull && committed) then r
    else match (api.schema r.client).model w.model with
      -- A watch is registered only for a model of the schema; the source panics here.
      | .error _ => r
      | .ok m =>
        match w.retryFull, changes.get w.model with
        | false, some (.keys keys) =>
          let keys := keys.sorted.map (·.2)
          match r.ask (api.queryKeys w.model w.filter keys) with
          | (.error e, r) => refreshFailed r id w e
          | (.ok rows, r) => match (matchingRows api m rows).bind (keyUpdates api keys) with
            | .error e => refreshFailed r id w e
            | .ok updates => refreshed api r id (w.updateKeys m updates)
        | _, _ => match r.ask (api.query w.model w.filter) with
          | (.error e, r) => refreshFailed r id w e
          | (.ok rows, r) => refreshed api r id (w.replace rows)

/-- The watches re-run after the commits since the last publication. -/
def refreshWatches (r : ClientRuntime C) : ClientRuntime C :=
  let (changes, client) := api.takeModelChanges r.client
  let committed := r.stale || !changes.isEmpty
  let r := { r with client, stale := false }
  (r.watches.sorted.map (·.1)).foldl (refreshWatch api changes committed) r

/-- Publish one watch that changed. -/
def publishWatch (r : ClientRuntime C) (id : Nat) : ClientRuntime C :=
  match r.watches.get id with
  | none => r
  | some w =>
    if w.published then r
    else { r with watches := r.watches.set id w.publication.2 }.push (.observerChanged (toString id) w.publication.1)

/-! ## SQL watches -/

/-- `watch_sql` (sql_watches.rs:54). -/
def watchSql (r : ClientRuntime C) (sql : String) (parameters : List Json) : Attempt C Json :=
  (r.ask (api.sqlTables sql)).andThen fun tables r =>
    (r.ask (api.readSql sql parameters)).andThen fun rows r =>
      Attempt.andThen r.issue fun id r =>
        let tables := tables.filter fun t => ¬ "sqlite_".toList <+: t.toList.map Char.toLower
        let (changes, client) := if tables.isEmpty then (none, r.client)
          else let (watcher, client) := api.watchKeyed tables r.client
            (some watcher, client)
        (.ok (.ofEntries [("observerId", .str (toString id))]), { r with
          client
          sqlWatches := r.sqlWatches.set id { sql, parameters, changes, rows } })

/-- One watch of `rerun_sql_watches`. -/
def rerunSqlWatch (r : ClientRuntime C) (id : Nat) : ClientRuntime C :=
  match r.sqlWatches.get id with
  | none => r
  | some w => match w.changes with
    | none => r
    | some watcher =>
      let (signalled, client) := api.drain watcher r.client
      let r := { r with client }
      if !signalled then r
      else match r.ask (api.readSql w.sql w.parameters) with
        | (.error e, r) => r.error e
        | (.ok rows, r) =>
          if w.rows = rows then r
          else { r with sqlWatches := r.sqlWatches.set id { w with rows, published := false } }

/-- `rerun_sql_watches` (sql_watches.rs:93). -/
def rerunSqlWatches (r : ClientRuntime C) : ClientRuntime C :=
  if r.transaction.isSome then r else (r.sqlWatches.sorted.map (·.1)).foldl (rerunSqlWatch api) r

def publishSqlWatch (r : ClientRuntime C) (id : Nat) : ClientRuntime C :=
  match r.sqlWatches.get id with
  | none => r
  | some w =>
    if w.published then r
    else { r with sqlWatches := r.sqlWatches.set id { w with published := true } }.push
      (.observerChanged (toString id) (.ofEntries [("kind", .str "watch"), ("rows", .arr w.rows)]))

/-! ## Unsent work -/

/-- `unsent_watch` (unsent.rs:66). -/
def unsentWatch (r : ClientRuntime C) (view : UnsentView) : Attempt C Json :=
  (r.ask (api.unsent view)).andThen fun snapshot r =>
    Attempt.andThen r.issue fun id r =>
      (.ok (.ofEntries [("observerId", .str (toString id))]),
        { r with unsent := r.unsent.set id { view, snapshot } })

/-- `unwatch_unsent` (unsent.rs:81). -/
def unwatchUnsent (r : ClientRuntime C) (observerId : String) : ClientRuntime C :=
  match parseU64 observerId with
  | none => r
  | some id => { r with unsent := r.unsent.remove id }

def rerunUnsent (r : ClientRuntime C) (id : Nat) : ClientRuntime C :=
  match r.unsent.get id with
  | none => r
  | some o => match r.ask (api.unsent o.view) with
    | (.error e, r) => r.error e
    | (.ok snapshot, r) =>
      if o.snapshot = snapshot then r
      else { r with unsent := r.unsent.set id { o with snapshot, published := false } }

def publishUnsentOne (r : ClientRuntime C) (id : Nat) : ClientRuntime C :=
  match r.unsent.get id with
  | none => r
  | some o =>
    if o.published then r
    else { r with unsent := r.unsent.set id { o with published := true } }.push (.observerChanged (toString id) o.snapshot)

/-- `publish_unsent` (unsent.rs:89). -/
def publishUnsent (r : ClientRuntime C) : ClientRuntime C :=
  let ids := r.unsent.sorted.map (·.1)
  let r := if r.stale && r.transaction.isNone then ids.foldl (rerunUnsent api) r else r
  ids.foldl publishUnsentOne r

/-! ## Publication and close -/

/-- `publish` (observers.rs:475): nothing re-runs while a callback transaction is open. -/
def publish (r : ClientRuntime C) : ClientRuntime C :=
  let r := publishUnsent api r
  let r := if r.transaction.isNone then refreshWatches api r else r
  let r := rerunSqlWatches api r
  let r := r.publishStatuses
  let r := (r.watches.sorted.map (·.1)).foldl publishWatch r
  (r.sqlWatches.sorted.map (·.1)).foldl publishSqlWatch r

/-- A watch ends with its last rows; a delta delivery needs none. -/
def Watch.closedSnapshot (w : Watch) : Json :=
  if w.deltaDelivery then .ofEntries [("kind", .str "watch"), ("closed", .bool true)]
  else .ofEntries [("kind", .str "watch"), ("rows", .arr w.rows), ("closed", .bool true)]

/-- One SQL watch of `close_sql_watches`. -/
def closeSqlWatch (r : ClientRuntime C) (e : Nat × SqlWatch) : ClientRuntime C :=
  { r with client := match e.2.changes with
      | some watcher => api.unwatch watcher r.client
      | none => r.client }.push (.observerChanged (toString e.1)
    (.ofEntries [("kind", .str "watch"), ("rows", .arr e.2.rows), ("closed", .bool true)]))

/-- One registration of `close_observers`. -/
def closeRegistered (r : ClientRuntime C) (e : Nat × Registration) : ClientRuntime C :=
  let r := e.2.waiters.foldl
    (fun r w => r.fail w.requestId clientClosed (.ofEntries [("code", .str clientClosed)])) r
  match e.2.observer with
  | some observer => r.push (.observerChanged observer (e.2.closedSnapshot e.1))
  | none => r

/-- `close_observers` (observers.rs:689). -/
def closeObservers (r : ClientRuntime C) : ClientRuntime C :=
  let registrations := r.registrations.sorted
  let r := registrations.foldl closeRegistered { r with registrations := [] }
  let watches := r.watches.sorted
  let r := watches.foldl (fun r e => r.push (.observerChanged (toString e.1) e.2.closedSnapshot)) { r with watches := [] }
  let sql := r.sqlWatches.sorted
  sql.foldl (closeSqlWatch api) { r with sqlWatches := [] }

/-- `close_unsent` (unsent.rs:127). -/
def closeUnsent (r : ClientRuntime C) : ClientRuntime C :=
  r.unsent.sorted.foldl (fun r e => r.push (.observerChanged (toString e.1) (e.2.snapshot.setField "closed" (.bool true))))
    { r with unsent := [] }

end

end ClientRuntime

end Axton
