import Axton.Runtime.Observers

/-!
# Effects, direct reads and prerequisites

Model of `crates/client/src/runtime/effects.rs`, `direct.rs`, `lanes.rs` and `prerequisites.rs`. An effect
result is correlated with the effect it answers and becomes queued work; a direct read waits for its request,
for one shared credential refresh or for the unit that applies its response.

| here | there |
|------|-------|
| `issueEffect`, `cancelEffect`, `effectResult`, `refused`, `joinRefresh` | effects.rs |
| `sendDirect`, `directResult`, `failCall`, `failDirect`, `beginRead`, `applyRead` | direct.rs |
| `connect`, `control`, `stopLanes` | lanes.rs |
| `prerequisiteTurn`, `prerequisiteResult`, `armPrerequisiteTimer` | prerequisites.rs |
-/

namespace Axton

open Bridge

namespace ClientRuntime

/-! ## Failures of a direct call -/

/-- `Failure` (direct.rs:51). -/
inductive Failure where
  | unavailable
  | timeout
  | transport (cause : Bridge.EffectError)
  | lost
  | replaced
  | refused (cause : Bridge.EffectError)

/-- `code` (direct.rs:26). -/
def codeDetails (error : String) : Json := .ofEntries [("code", .str error)]

/-- `caused` (direct.rs:45). -/
def causedDetails (error cause : String) : Json := .ofEntries [("code", .str error), ("message", .str cause)]

/-- `with_cause` (direct.rs:36). -/
def withCause (error : String) (cause : Bridge.EffectError) : Json :=
  match cause.status with
  | some status => (causedDetails error cause.message).setField "status" (.nat status)
  | none => causedDetails error cause.message

def unavailableCode : String := "action.unavailable"
def executionUnknown : String := "action.execution_unknown"
def observationFailed : String := "action.observation_failed"
def invalidOptions : String := "action.invalid_options"
def timedOut : String := "direct call timed out"
def fetchInvalidOptions : String := "fetch.invalid_options"
def fetchUnavailable : String := "fetch.unavailable"
def fetchTimeout : String := "fetch.timeout"
def fetchTransportFailed : String := "fetch.transport_failed"
def fetchInvalidResponse : String := "fetch.invalid_response"
def fetchStoreFailed : String := "fetch.store_failed"
def fetchSchemaChanged : String := "fetch.schema_changed"

namespace Failure

/-- Action calls: unavailable, otherwise an unknown execution. -/
def action : Failure → String × Json
  | .unavailable => (unavailableCode, codeDetails unavailableCode)
  | .timeout => (executionUnknown, withCause executionUnknown { message := timedOut })
  | .transport cause => (executionUnknown, withCause executionUnknown cause)
  | .lost | .replaced => (executionUnknown, codeDetails executionUnknown)
  | .refused cause => (unavailableCode, withCause unavailableCode cause)

def fetch : Failure → String × Json
  | .unavailable => (fetchUnavailable, codeDetails fetchUnavailable)
  | .timeout => (fetchTimeout, causedDetails fetchTimeout timedOut)
  | .transport cause => (fetchTransportFailed, withCause fetchTransportFailed cause)
  | .lost => (fetchTransportFailed, codeDetails fetchTransportFailed)
  | .replaced => (fetchSchemaChanged, codeDetails fetchSchemaChanged)
  | .refused cause => (fetchUnavailable, withCause fetchUnavailable cause)

end Failure

/-- A request waits for no refresh any more. -/
def Connection.leave (requestId : String) (c : Connection) : Connection :=
  { c with waiters := c.waiters.filter (· ≠ requestId) }

/-- A response of this request waits for its apply unit. -/
def Ready.applies (requestId : String) : Ready → Bool
  | .applyDirect id _ => id = requestId
  | .prerequisiteOutcome _ _ => false

def Ready.isOutcome : Ready → Bool
  | .applyDirect _ _ => false
  | .prerequisiteOutcome _ _ => true

/-- `http_body` (effects.rs:42). -/
def httpBody (outcome : Bridge.EffectOutcome) : Except Bridge.EffectError String :=
  if !outcome.ok then .error (outcome.error.getD { message := "request failed" })
  else match outcome.value with
    | some (.str body) => .ok body
    | some (.obj answer) =>
      let status : Option Nat := match Fields.get answer "status" with
        | some (.num (.posInt n)) => if n < 65536 then some n else none
        | _ => none
      match status.filter fun s => !(200 ≤ s && s < 300) with
      | some status => .error { message := "HTTP " ++ toString status, status := some status }
      | none => match Fields.get answer "body" with
        | some (.str body) => .ok body
        | _ => .error { message := "invalid HTTP result: body must be a string", status }
    | _ => .error { message := "invalid HTTP result" }

/-- `admission_refusal` (effects.rs:84). -/
def admissionRefusal (outcome : Bridge.EffectOutcome) : Option Bridge.EffectError :=
  outcome.error.filter fun e => !outcome.ok && e.status.isSome && e.refusal.isSome

section
variable {C : Type}

/-! ## The effect table -/

/-- `issue_effect` (effects.rs:95). -/
def issueEffect (r : ClientRuntime C) (kind : EffectKind) (operation : Bridge.Operation) :
    Option String × ClientRuntime C :=
  match r.issue with
  | (.ok id, r) =>
    (some (toString id), { r with effects := r.effects.set (toString id) kind }.push (.effect (toString id) operation))
  | (.error message, r) => (none, r.error message)

/-- `cancel_effect` (effects.rs:120). -/
def cancelEffect (r : ClientRuntime C) (effectId : String) : ClientRuntime C :=
  match r.effects.get effectId with
  | none => r
  | some _ => { r with effects := r.effects.remove effectId }.push (.cancelEffect effectId)

/-! ## Direct calls -/

/-- `route` (direct.rs:569). -/
def route (fetch : Bool) : Bridge.HttpRoute := if fetch then .fetch else .action

/-- `send_direct` (direct.rs:152). -/
def sendDirect (r : ClientRuntime C) (requestId callId body : String) (fetch : Bool) : Attempt C Unit :=
  match r.connection with
  | none => (.error unavailableCode, r)
  | some connection =>
    match r.issueEffect (.directHttp requestId) (.http (route fetch) body) with
    | (none, r) => (.error executionUnknown, r)
    | (some http, r) =>
      let (timer, r) := r.issueEffect (.directTimer requestId) (.timer connection.timeout)
      (.ok (), { r with directs := r.directs.set requestId { callId, body, http := some http, timer, fetch } })

/-- `fail_direct` (direct.rs:282): the call leaves every place that still names it. -/
def failDirect (r : ClientRuntime C) (requestId error : String) (details : Json) : ClientRuntime C :=
  match r.directs.get requestId with
  | none => r
  | some call =>
    let r := { r with directs := r.directs.remove requestId }
    let r := (call.http.toList ++ call.timer.toList).foldl cancelEffect r
    let r := { r with
      connection := r.connection.map (Connection.leave requestId)
      ready := r.ready.filter (!Ready.applies requestId ·) }
    r.fail requestId error details

/-- `fail_call` (direct.rs:271). -/
def failCall (r : ClientRuntime C) (requestId : String) (failure : Failure) : ClientRuntime C :=
  match r.directs.get requestId with
  | none => r
  | some call =>
    let (error, details) := if call.fetch then failure.fetch else failure.action
    r.failDirect requestId error details

/-- `fail_directs_in_flight` (direct.rs:302). -/
def failDirectsInFlight (r : ClientRuntime C) (failure : Failure) : ClientRuntime C :=
  ((r.directs.sorted.filter fun e => !e.2.applying).map (·.1)).foldl (fun r id => r.failCall id failure) r

/-- `fail_directs` (direct.rs:315). -/
def failDirects (r : ClientRuntime C) (failure : Failure) : ClientRuntime C :=
  (r.directs.sorted.map (·.1)).foldl (fun r id => r.failCall id failure) r

/-- `join_refresh` (effects.rs:206). -/
def joinRefresh (r : ClientRuntime C) (requestId : String) : ClientRuntime C :=
  match r.connection with
  | none => r
  | some c =>
    let joined := { c with waiters := c.waiters ++ [requestId] }
    let r := { r with connection := some joined }
    if c.refreshing.isSome then r
    else
      let (effect, r) := r.issueEffect .refreshAuth .refreshAuth
      { r with connection := some { joined with refreshing := effect } }

/-- `direct_result` (direct.rs:203). -/
def directResult (r : ClientRuntime C) (requestId : String) (outcome : Bridge.EffectOutcome) : ClientRuntime C :=
  match r.directs.get requestId with
  | none => r
  | some call =>
    match httpBody outcome with
    | .ok response =>
      let r := { r with directs := r.directs.set requestId { call with http := none, applying := true, timer := none } }
      let r := call.timer.toList.foldl cancelEffect r
      { r with ready := r.ready ++ [.applyDirect requestId response] }
    | .error e =>
      let refresh := decide (e.status = some 401) && !call.retried && r.connection.any (·.refresh)
      if refresh then
        { r with directs := r.directs.set requestId { call with http := none, retried := true } }.joinRefresh requestId
      else
        { r with directs := r.directs.set requestId { call with http := none } }.failCall requestId (.transport e)

/-- `resend_direct` (direct.rs:241). -/
def resendDirect (r : ClientRuntime C) (requestId : String) : ClientRuntime C :=
  match r.directs.get requestId with
  | none => r
  | some call =>
    match r.issueEffect (.directHttp requestId) (.http (route call.fetch) call.body) with
    | (some http, r) => { r with directs := r.directs.set requestId { call with http := some http } }
    | (none, r) => r.failCall requestId .lost

/-- `direct_timeout` (direct.rs:262). -/
def directTimeout (r : ClientRuntime C) (requestId : String) : ClientRuntime C :=
  match r.directs.get requestId with
  | none => r
  | some call => { r with directs := r.directs.set requestId { call with timer := none } }.failCall requestId .timeout

/-! ## The connection -/

/-- `connect` (lanes.rs:12). -/
def connect (r : ClientRuntime C) (timeout : Option Nat) (refresh : Bool) : Attempt C Json :=
  if r.connection.isSome then (.error "connection already active", r)
  else
    let timeout := timeout.getD 30000
    if !(1 ≤ timeout && timeout ≤ 2147483647) then
      (.error "directTimeoutMs must be an integer from 1 to 2147483647", r)
    else (.ok .null, { r with
      connection := some { timeout, refresh }
      prerequisites := { r.prerequisites with dirty := true } })

/-- `stop_lanes` (lanes.rs:59). -/
def stopLanes (r : ClientRuntime C) : ClientRuntime C :=
  let r := (r.connection.bind (·.refreshing)).toList.foldl cancelEffect r
  { r.failDirectsInFlight .unavailable with connection := none }

/-- `wake_lanes` (lanes.rs:66). -/
def wakeLanes (r : ClientRuntime C) : ClientRuntime C :=
  { r with prerequisites := { r.prerequisites with dirty := true } }

/-- `release_initial_reads05` (tasks.rs:199). -/
def releaseInitialReads (r : ClientRuntime C) (initialized : Bool) : ClientRuntime C :=
  if initialized then
    { r with tasks := { r.tasks with queue := r.tasks.initialReads ++ r.tasks.queue, initialReads := [] } }
  else
    r.tasks.initialReads.foldl (fun r task => match task.command with
      | .fetch _ _ _ _ => r.fail task.requestId fetchUnavailable (codeDetails fetchUnavailable)
      | _ => r.complete task.requestId (.error unavailableCode))
      { r with tasks := { r.tasks with initialReads := [] } }

/-- `control` (lanes.rs:36). -/
def control (r : ClientRuntime C) (event : ConnectionEvent) : Attempt C Json :=
  match r.connection with
  | none => (.error "connection not active", r)
  | some c => (.ok .null, match event with
    | .stop => (r.releaseInitialReads false).stopLanes
    | .pause => { r with connection := some { c with paused := true } }
    | .resume => { r with connection := some { c with paused := false } }
    | .wake => r.wakeLanes)

/-- A refused client is reported and its connection stops; a body that is no JSON is kept as text. -/
def reportRefused (decode : String → Option Json) (r : ClientRuntime C) (e : Bridge.EffectError) : ClientRuntime C :=
  if r.connection.isNone then r
  else match e.status, e.refusal with
    | some status, some body => (r.report (.refused e.message status ((decode body).getD (.str body)))).stopLanes
    | _, _ => r

/-- `refused` (effects.rs:184). -/
def refused (decode : String → Option Json) (r : ClientRuntime C) (effectId : String) (e : Bridge.EffectError) :
    ClientRuntime C :=
  match r.effects.get effectId with
  | none => r
  | some (.directHttp requestId) =>
    reportRefused decode ({ r with effects := r.effects.remove effectId }.failCall requestId (.refused e)) e
  | some _ => reportRefused decode { r with effects := r.effects.remove effectId } e

/-- `refreshed` (effects.rs:220), with `resume_waiter` for each waiter. -/
def refreshSettled (r : ClientRuntime C) (effectId : String) (outcome : Bridge.EffectOutcome) : ClientRuntime C :=
  match r.connection with
  | none => r
  | some c =>
    if c.refreshing ≠ some effectId then r
    else
      let r := { r with connection := some { c with refreshing := none, waiters := [] } }
      if outcome.ok then c.waiters.foldl resendDirect r
      else
        let e := outcome.error.getD { message := "refreshAuth failed" }
        c.waiters.foldl (fun r id => r.failCall id (.transport e)) (r.errorStatus e.message e.status)

/-! ## Prerequisites -/

/-- `Prerequisites::ready` (prerequisites.rs:47). -/
def Prerequisites.isReady (p : Prerequisites) : Bool := p.dirty && p.running.isNone && !p.handlers.isEmpty

/-- `prerequisite_backoff` (prerequisites.rs:236). -/
def prerequisiteBackoff (attempts entropy : Nat) : Nat :=
  min (min (1000 * 2 ^ min (attempts - 1) 5) 30000 * (800 + entropy % 401) / 1000) 30000

/-- `prerequisite_readiness` (prerequisites.rs:161). -/
def prerequisiteReadiness (r : ClientRuntime C) (key : String) : ClientRuntime C :=
  { r with prerequisites := { r.prerequisites with backoff := r.prerequisites.backoff.remove key, dirty := true } }

/-- `prerequisite_result` (prerequisites.rs:121). -/
def prerequisiteResult (r : ClientRuntime C) (key : String) (outcome : Bridge.EffectOutcome) (now entropy : Nat) :
    ClientRuntime C :=
  let r := { r with prerequisites := { r.prerequisites with running := none, dirty := true } }
  if outcome.ok then { r with ready := r.ready ++ [.prerequisiteOutcome key none] }
  else if outcome.error.any (·.retry) then
    let attempts := min (((r.prerequisites.backoff.get key).map (·.attempts)).getD 0 + 1) maxU64
    let due := min (now + prerequisiteBackoff attempts entropy) maxU64
    { r with prerequisites := { r.prerequisites with backoff := r.prerequisites.backoff.set key ⟨attempts, due⟩ } }
  else
    let reason := (outcome.error.map (·.message)).getD "prerequisite failed"
    { r with ready := r.ready ++ [.prerequisiteOutcome key (some reason)] }

/-- `prerequisite_timer_fired` (prerequisites.rs:168). -/
def prerequisiteTimerFired (r : ClientRuntime C) (effectId : String) : ClientRuntime C :=
  match r.prerequisites.timer with
  | none => r
  | some (timer, fired) =>
    if timer ≠ effectId then r
    else { r with prerequisites := { r.prerequisites with
      timer := none
      dirty := true
      backoff := r.prerequisites.backoff.map fun e => if e.2.due ≤ fired then (e.1, { e.2 with due := 0 }) else e } }

/-- `arm_prerequisite_timer` (prerequisites.rs:180). -/
def armPrerequisiteTimer (r : ClientRuntime C) (now : Nat) : ClientRuntime C :=
  let due := ((r.prerequisites.backoff.map (·.2.due)).filter fun due => decide (now < due)).min?
  if r.prerequisites.timer.map (·.2) = due then r
  else
    let old := r.prerequisites.timer.map (·.1)
    let r := old.toList.foldl cancelEffect { r with prerequisites := { r.prerequisites with timer := none } }
    match due with
    | none => r
    | some due => match r.issueEffect .prerequisiteTimer (.timer (due - now)) with
      | (some timer, r) => { r with prerequisites := { r.prerequisites with timer := some (timer, due) } }
      | (none, r) => r

/-- `rebuilt_prerequisites` (prerequisites.rs:211). -/
def rebuiltPrerequisites (r : ClientRuntime C) : ClientRuntime C :=
  let p := r.prerequisites
  let r := { r with
    ready := r.ready.filter (!Ready.isOutcome ·)
    prerequisites := { p with running := none, timer := none, backoff := [], dirty := true } }
  ((p.running.map (·.1)).toList ++ (p.timer.map (·.1)).toList).foldl cancelEffect r

/-- `close_prerequisites` (prerequisites.rs:226). -/
def closePrerequisites (r : ClientRuntime C) : ClientRuntime C :=
  { r with prerequisites := { handlers := r.prerequisites.handlers } }

/-- A pending task of `pending_tasks`. -/
def taskPending (task : Json) : Bool := task.index "state" = .str "pending"

/-- A task a handler may run now (prerequisites.rs:99-108). -/
def taskRunnable (p : Prerequisites) (now : Nat) (task : Json) : Bool :=
  let handled := (task.index "name").asStr.any fun name => p.handlers.contains name
  let waiting := (task.index "key").asStr.any fun key => (p.backoff.get key).any fun b => decide (now < b.due)
  taskPending task && handled && !waiting

/-- `effect_result` (effects.rs:136). -/
def effectResult (decode : String → Option Json) (r : ClientRuntime C) (effectId : String) (outcome : Bridge.EffectOutcome)
    (now entropy : Nat) : ClientRuntime C :=
  match r.effects.get effectId, admissionRefusal outcome with
  | some (.directHttp _), some e => refused decode r effectId e
  | none, _ | some .callback, _ => r
  | some kind, _ =>
    let r := { r with effects := r.effects.remove effectId }
    match kind with
    | .refreshAuth => r.refreshSettled effectId outcome
    | .directHttp requestId => r.directResult requestId outcome
    | .directTimer requestId => r.directTimeout requestId
    | .prerequisite key => r.prerequisiteResult key outcome now entropy
    | .prerequisiteTimer => r.prerequisiteTimerFired effectId
    | .callback => r

end

section
variable {C : Type} (api : ClientApi C)

/-- A commit since `generation` wakes the lanes. -/
def wakeSince (r : ClientRuntime C) (generation : Nat) : ClientRuntime C :=
  if api.generation r.client = generation then r else r.wakeLanes

/-- A task that is no longer pending forgets its backoff. -/
def forgetBackoff (r : ClientRuntime C) (tasks : List Json) : ClientRuntime C :=
  let backoff := r.prerequisites.backoff.filter fun e =>
    tasks.any fun task => taskPending task && decide ((task.index "key").asStr = some e.1)
  { r with prerequisites := { r.prerequisites with backoff } }

/-- Ask the host to run the handler of a task. -/
def runPrerequisite (r : ClientRuntime C) (task : Json) : ClientRuntime C :=
  let key := (task.index "key").asStr.getD ""
  match r.issueEffect (.prerequisite key)
      (.prerequisite key ((task.index "name").asStr.getD "") (task.index "arguments")) with
  | (some effect, r) => { r with prerequisites := { r.prerequisites with running := some (effect, key) } }
  | (none, r) => r

/-- `prerequisite_turn` (prerequisites.rs:83). -/
def prerequisiteTurn (r : ClientRuntime C) (now : Nat) : ClientRuntime C :=
  match { r with prerequisites := { r.prerequisites with dirty := false } }.ask api.pendingTasks with
  | (.error e, r) => r.error ("prerequisite tasks: " ++ e)
  | (.ok tasks, r) =>
    let r := forgetBackoff r tasks
    let r := match tasks.find? (taskRunnable r.prerequisites now) with
      | none => r
      | some task => runPrerequisite r task
    r.armPrerequisiteTimer now

/-- `prerequisite_outcome` (prerequisites.rs:151). -/
def prerequisiteOutcome (r : ClientRuntime C) (key : String) (error : Option String) : ClientRuntime C :=
  let r := r.prerequisiteReadiness key
  let generation := api.generation r.client
  let r := match r.ask (api.outcome key error) with
    | (.ok _, r) => r
    | (.error e, r) => r.error ("prerequisite outcome: " ++ e)
  committedSince api r generation

/-- What a read may name: a query of the schema, or a model version and a valid identity
(direct.rs:380-413). -/
def readAdmitted (P : Platform) (r : ClientRuntime C) : ReadInvocation → Except String Unit
  | .query name version _ => do
    let a ← (api.schema r.client).action name version
    check (a.kind = .query) "invoke requires Query"
  | .fetch key version => do
    check (api.resultModel key.model version r.client ||
      (api.schema r.client).models.any fun m => decide (m.name = key.model) && decide (m.version = version))
      ("unsupported Fetch Model " ++ key.model ++ " v" ++ toString version)
    let _ ← Schema.recordKey P (api.schema r.client) key.model key.identity

def ReadInvocation.isFetch : ReadInvocation → Bool
  | .fetch _ _ => true
  | .query _ _ _ => false

/-- `begin_read05` (direct.rs:360). -/
def beginRead (P : Platform) (r : ClientRuntime C) (requestId : String) (invocation : ReadInvocation)
    (store : Option Json) : Attempt C Unit :=
  (r.ask api.pendingSchema).andThen fun pending r =>
    if pending then (.error "read.schema_pending", r)
    else
      let stored : Except String Bool := match store with
        | none => .ok true
        | some (.bool b) => .ok b
        | some _ => .error invalidOptions
      match stored, readAdmitted api P r invocation with
      | .error e, _ => (.error e, r)
      | _, .error e => (.error e, r)
      | .ok stored, .ok _ =>
        if r.connection.isNone then (.error unavailableCode, r)
        else (r.ask api.requestContext).andThen fun context r =>
          let request : ReadRequest := ⟨context, r.capabilityToken "read" (r.issued + 1), stored, invocation⟩
          match api.encodeRead request with
          | .error e => (.error e, r)
          | .ok body => r.sendDirect requestId request.requestId body (ReadInvocation.isFetch invocation)

/-- `fetch` (direct.rs:334): a refusal is answered here. -/
def fetch (P : Platform) (r : ClientRuntime C) (requestId model : String) (version : Nat) (identity : Json)
    (store : Option Json) : ClientRuntime C :=
  match beginRead api P r requestId (.fetch ⟨model, identity⟩ version) store with
  | (.ok _, r) => r
  | (.error e, r) =>
    let kind := if e = unavailableCode then fetchUnavailable
      else if e = "read.schema_pending" then "fetch.schema_pending"
      else fetchInvalidOptions
    r.fail requestId kind (causedDetails kind e)

/-- `invoke` (direct.rs:131): nothing while the task waits for its request. -/
def invoke (P : Platform) (r : ClientRuntime C) (requestId name : String) (version : Nat) (args : Json)
    (store : Option Json) : Option (Except String Json) × ClientRuntime C :=
  match beginRead api P r requestId (.query name version args) store with
  | (.ok _, r) => (none, r)
  | (.error e, r) => (some (.error e), r)

/-- What a read came to, as the task answers it (direct.rs:551). -/
def ReadOutcome.json : ReadOutcome → Json
  | .succeeded result => .ofEntries [("status", .str "succeeded"), ("result", result)]
  | .failed code message => .ofEntries [("status", .str "failed"), ("code", .str code),
      ("message", .str message), ("execution", .str "rejected")]

/-- A stored read installs its records. -/
def installRead (r : ClientRuntime C) (admitted : AdmittedRead) : Attempt C Unit :=
  if admitted.store then r.ask (api.installCache admitted.records) else (.ok (), r)

/-- The task completes with its call's own outcome, which an Action call announces as well. -/
def answerRead (r : ClientRuntime C) (call : DirectCall) (requestId : String) (outcome : Json) : ClientRuntime C :=
  let r := if call.fetch then r else r.push (.callCompleted call.callId outcome)
  r.complete requestId (.ok (.ofEntries [("outcome", outcome)]))

/-- `apply_read05` (direct.rs:429). -/
def applyRead (r : ClientRuntime C) (requestId response : String) : ClientRuntime C :=
  match r.directs.get requestId with
  | none => r
  | some call =>
    let r := { r with directs := r.directs.remove requestId }
    let (decoded, client) := api.admitRead call.body response r.client
    let r := { r with client }
    match decoded with
    | .error (mismatch, e) =>
      let kind := if call.fetch && mismatch then fetchStoreFailed
        else if call.fetch then fetchInvalidResponse else executionUnknown
      r.fail requestId kind (causedDetails kind e)
    | .ok admitted =>
      let generation := api.generation r.client
      match installRead api r admitted with
      | (.error e, r) =>
        let kind := if call.fetch then fetchStoreFailed else observationFailed
        r.fail requestId kind (causedDetails kind e)
      | (.ok _, r) => answerRead (committedSince api r generation) call requestId (ReadOutcome.json admitted.outcome)

end

end ClientRuntime

end Axton
