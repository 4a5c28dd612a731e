import Axton.Runtime.Direct

/-!
# The open application transaction

Model of `crates/client/src/runtime/transactions.rs` and of the resolutions of `unsent.rs`: the capability and
scope rules of a callback's commands, the local callback of a submission, the failure accounting, and the end
of the transaction.

| here | there |
|------|-------|
| `openTransaction`, `continueTransaction`, `callbackResult`, `stepTransaction` | the methods of the same names |
| `capability`, `inScope`, `execute`, `runCommand` | `run_command` (transactions.rs:239) |
| `submitMutation`, `finishLocal`, `savepoint`, `finishTransaction` | the methods of the same names |
| `resolveInTransaction`, `announceResolved` | unsent.rs:143, unsent.rs:176 |
-/

namespace Axton

open Bridge

namespace ClientRuntime

def invalidScope : String := "invalid transaction scope"
def transactionClosed : String := "transaction_closed"
def invalidCapability : String := "invalid transaction capability"
def unawaited : String := "unawaited transaction operation"

/-- `local_command` (transactions.rs:127). -/
def localCommand : TransactionCommand → Bool
  | .read _ | .direct _ | .malformed _ => true
  | _ => false

namespace Transaction

/-- A structural failure; the first one is kept. -/
def structurally (t : Transaction) (error : String) : Transaction := { t with structural := t.structural <|> some error }

/-- An engine failure; the first one is kept. -/
def poison (t : Transaction) (error : String) : Transaction := { t with failure := t.failure <|> some error }

/-- A failure of the running local callback's own command. -/
def poisonLocal (t : Transaction) (error : String) : Transaction :=
  { t with localCallback := t.localCallback.map fun l => { l with failure := l.failure <|> some error } }

/-- Whether a command belongs to the running local callback; nothing when its capability is not the active
one (transactions.rs:247-255). -/
def capability (t : Transaction) (command : Continuation) : Option Bool :=
  match t.localCallback, command.companionId with
  | none, none => some false
  | some l, some token => if l.companionId = token then some true else none
  | _, _ => none

/-- The scope a `release` or `rollbackSavepoint` closes: the one it names, else the innermost one. -/
def closes (t : Transaction) : TransactionCommand → Option (Option String)
  | .release scope | .rollbackSavepoint scope => some (scope <|> t.scopes.getLast?.map (·.token))
  | _ => none

/-- A command names the innermost open scope, and a closing one closes it (transactions.rs:263-274). -/
def inScope (t : Transaction) (command : Continuation) : Bool :=
  let top := t.scopes.getLast?.map (·.token)
  decide (command.scope = top) && (t.closes command.command).all fun named => named.isSome && decide (named = top)

/-- The local callback collects the writes it previewed. -/
def collect (t : Transaction) (operations : List Axton.Operation) : Transaction :=
  { t with localCallback := t.localCallback.map fun l =>
      { l with deferred := l.deferred.map fun d => { d with operations := d.operations ++ operations } } }

/-- Why a finished callback may not commit (transactions.rs:577-588). -/
def refusal (t : Transaction) (ok : Bool) (error : Option String) : Option String :=
  if !ok then some (error.getD "transaction failed")
  else if t.structural.isSome then t.structural
  else if !t.lane.isEmpty || t.localCallback.isSome then some unawaited
  else if !t.scopes.isEmpty then some "unclosed savepoint"
  else t.failure

end Transaction

/-- `submission` (transactions.rs:625). -/
def submission (call : SubmittedCall) : Json := .ofEntries [
  ("callId", .str call.callId), ("ordinal", .nat call.ordinal)]

section
variable {C : Type}

/-- Change the open transaction. -/
def onTransaction (r : ClientRuntime C) (f : Transaction → Transaction) : ClientRuntime C :=
  { r with transaction := r.transaction.map f }

/-- `call_transitions` (transactions.rs:524). -/
def callTransitions (r : ClientRuntime C) (calls : List String) (state : CallTransition) : ClientRuntime C :=
  calls.foldl (fun r callId => r.push (.transactionCallState callId state)) r

/-- Close the commands of a lane. -/
def closeCommands (r : ClientRuntime C) (commands : List Continuation) (error : String) : ClientRuntime C :=
  commands.foldl (fun r c => r.complete c.requestId (.error error)) r

/-- `continue_transaction` (transactions.rs:172). -/
def continueTransaction (r : ClientRuntime C) (command : Continuation) : ClientRuntime C :=
  match r.transaction with
  | some t =>
    if t.transactionId = command.transactionId ∧ t.finishing.isNone then
      { r with transaction := some { t with lane := t.lane ++ [command] } }
    else r.complete command.requestId (.error transactionClosed)
  | none => r.complete command.requestId (.error transactionClosed)

/-- `callback_result` (transactions.rs:185). -/
def callbackResult (r : ClientRuntime C) (effectId transactionId : String) (companionId : Option String) (ok : Bool)
    (error : Option String) (input : Option Json) : ClientRuntime C :=
  r.onTransaction fun t =>
    if t.transactionId ≠ transactionId then t
    else match companionId with
      | none => if t.effectId = effectId ∧ t.finishing.isNone then { t with finishing := some (ok, error) } else t
      | some token => { t with localCallback := t.localCallback.map fun l =>
          if l.companionId = token ∧ l.effectId = effectId ∧ l.finishing.isNone then
            { l with finishing := some (ok, error, input) }
          else l }

/-- `announce_resolved` (unsent.rs:176). -/
def announceResolved (r : ClientRuntime C) (resolved : List Resolved) : ClientRuntime C :=
  resolved.foldl (fun r resolution => match resolution with
    | .completed c => r.push (.callCompleted c.callId c.outcome)
    | .retried key => r.prerequisiteReadiness key) r

end

section
variable {C : Type} (api : ClientApi C)

/-- The identities of a new transaction: its token and its callback's effect. -/
def issueTransaction (r : ClientRuntime C) : Attempt C (String × String) :=
  Attempt.andThen r.issue fun transaction r => Attempt.andThen r.issue fun effect r =>
    (.ok (r.capabilityToken "tx" transaction, toString effect), r)

/-- `open_transaction` (transactions.rs:145). -/
def openTransaction (r : ClientRuntime C) (requestId : String) : ClientRuntime C :=
  match issueTransaction r with
  | (.error e, r) => r.complete requestId (.error e)
  | (.ok (transactionId, effectId), r) => match r.ask api.beginSession with
    | (.error e, r) => r.complete requestId (.error e)
    | (.ok _, r) => { r with
        effects := r.effects.set effectId .callback
        transaction := some { owner := requestId, transactionId, effectId } }.push
          (.effect effectId (.callback transactionId requestId))

/-- `savepoint` (transactions.rs:530). -/
def savepoint (r : ClientRuntime C) : Attempt C Json :=
  Attempt.andThen r.issue fun scope r =>
    let token := r.capabilityToken "sp" scope
    (r.ask api.sessionSavepoint).andThen fun _ r =>
      (.ok (.ofEntries [("scope", .str token)]), r.onTransaction fun t =>
        { t with scopes := t.scopes ++ [⟨token, t.failure, t.calls.length, t.resolved.length⟩] })

/-- `pop_scope` (transactions.rs:553) before the client's own savepoint is closed. -/
def popScope (r : ClientRuntime C) : ClientRuntime C := r.onTransaction fun t => { t with scopes := t.scopes.dropLast }

/-- `rollbackSavepoint` (transactions.rs:292-306). -/
def rollbackScope (r : ClientRuntime C) : Attempt C (Option Json) :=
  match r.transaction.bind (·.scopes.getLast?) with
  | none => (.error "no open savepoint to roll back", r)
  | some scope =>
    ((popScope r).ask api.sessionRollbackSavepoint).andThen fun _ r =>
      let discarded := (r.transaction.map fun t => t.calls.drop scope.calls).getD []
      let r := r.onTransaction fun t => { t with
        failure := scope.failure
        calls := t.calls.take scope.calls
        resolved := t.resolved.take scope.resolved }
      (.ok (some .null), r.callTransitions discarded .rolledBack)

/-- `submit_mutation` (transactions.rs:378): nothing while the local callback runs. -/
def submitMutation (r : ClientRuntime C) (requestId name : String) (version : Nat) (args : Json)
    (store localFlag : Option Json) : Attempt C (Option Json) :=
  let asks : Except String Bool := match localFlag with
    | none | some .null => .ok false
    | some (.bool b) => .ok b
    | some _ => .error "invalid mutation options: local must be a boolean"
  match asks with
  | .error e => (.error e, r)
  | .ok asks =>
    if store.isSome then (.error "Mutation does not accept store", r)
    else if !asks then
      (r.ask (api.sessionSubmit name version args [])).andThen fun call r =>
        (.ok (some (submission call)), r.onTransaction fun t => { t with calls := t.calls ++ [call.callId] })
    else match (api.schema r.client).action name version with
      | .error e => (.error e, r)
      | .ok a =>
        if a.kind ≠ .mutation then (.error "only a Mutation can be submitted", r)
        else
          (r.ask api.sessionSavepoint).andThen fun _ r =>
            Attempt.andThen r.issue fun companion r =>
              let companionId := r.capabilityToken "c" companion
              Attempt.andThen r.issue fun effect r => match r.transaction with
                | none => (.error transactionClosed, r)
                | some t => (.ok none, { r with
                    transaction := some { t with localCallback := some {
                      companionId
                      effectId := toString effect
                      requestId
                      call := ⟨"", 0⟩
                      deferred := some { name, version } } }
                    effects := r.effects.set (toString effect) .callback }.push
                      (.effect (toString effect) (.mutationLocal t.transactionId companionId requestId)))

/-- `resolve_in_transaction` (unsent.rs:143). -/
def resolveInTransaction (r : ClientRuntime C) (command : TransactionCommand) : Attempt C (Option Json) :=
  let resolved : Attempt C (List Resolved) := match command with
    | .dismiss ordinal => (r.ask (api.sessionDismiss ordinal)).andThen fun _ r => (.ok [], r)
    | .retryTasks keys => (r.ask (api.sessionRetryTasks keys)).andThen fun _ r => (.ok (keys.map .retried), r)
    | .discard ordinal => (r.ask (api.sessionDiscard ordinal)).andThen fun cs r => (.ok (cs.map .completed), r)
    | _ => (.error "not a resolution of unsent work", r)
  resolved.andThen fun resolved r =>
    (.ok (some .null), r.onTransaction fun t => { t with resolved := t.resolved ++ resolved })

/-- `execute_in_session` (commands.rs:113). -/
def executeInSession (r : ClientRuntime C) : TransactionCommand → Attempt C Json
  | .read q => r.ask (api.sessionRead q)
  | .direct operation => (r.ask (api.sessionDirect operation)).andThen fun _ r => (.ok .null, r)
  | .malformed e => (.error e, r)
  | _ => (.error "a transaction lifecycle is not a client command", r)

/-- A write of the local callback: a preview while its submission is deferred, else a companion
(transactions.rs:321-346). -/
def localWrite (r : ClientRuntime C) (l : LocalCallback) (operation : Axton.Operation) : Attempt C (Option Json) :=
  if l.deferred.isSome then
    (r.ask (api.previewCallback operation)).andThen fun operations r =>
      (.ok (some .null), r.onTransaction fun t => t.collect operations)
  else (r.ask (api.appendCompanion l.call.ordinal operation)).andThen fun _ r => (.ok (some .null), r)

/-- What an admitted command does (transactions.rs:283-352). -/
def execute (r : ClientRuntime C) (t : Transaction) (own : Bool) (command : Continuation) : Attempt C (Option Json) :=
  match command.command with
  | .savepoint => (savepoint api r).andThen fun v r => (.ok (some v), r)
  | .release _ => ((popScope r).ask api.sessionRelease).andThen fun _ r => (.ok (some .null), r)
  | .rollbackSavepoint _ => rollbackScope api r
  | .submitMutation name version args store localFlag =>
    submitMutation api r command.requestId name version args store localFlag
  | .dismiss ordinal => resolveInTransaction api r (.dismiss ordinal)
  | .retryTasks keys => resolveInTransaction api r (.retryTasks keys)
  | .discard ordinal => resolveInTransaction api r (.discard ordinal)
  | .direct operation => match own, t.localCallback with
    | true, some l => localWrite api r l operation
    | true, none => (.error "companion write without its local callback", r)
    | false, _ => (executeInSession api r (.direct operation)).andThen fun v r => (.ok (some v), r)
  | other => (executeInSession api r other).andThen fun v r => (.ok (some v), r)

/-- The failure accounting of a command that failed (transactions.rs:355-370). -/
def accountFailure (own : Bool) (e : String) (t : Transaction) : Transaction :=
  let deferred := own && t.localCallback.any (·.deferred.isSome)
  let t := if deferred then t else t.poison e
  if own then t.poisonLocal e else t

/-- `run_command` (transactions.rs:239): nothing while the command waits for the local callback it started. -/
def runCommand (r : ClientRuntime C) (command : Continuation) : Option (Except String Json) × ClientRuntime C :=
  match r.transaction with
  | none => (some (.error transactionClosed), r)
  | some t => match t.capability command with
    | none => (some (.error invalidCapability), r.onTransaction (·.structurally invalidCapability))
    | some own =>
      if own && !localCommand command.command then
        (some (.error invalidCapability),
          r.onTransaction fun t => (t.structurally invalidCapability).poisonLocal invalidCapability)
      else if !t.inScope command then
        (some (.error invalidScope), r.onTransaction fun t =>
          if own then (t.structurally invalidScope).poisonLocal invalidScope else t.structurally invalidScope)
      else match execute api r t own command with
        | (.ok value, r) => (value.map .ok, r)
        | (.error e, r) => (some (.error e), r.onTransaction (accountFailure own e))

/-- The submission of a finished local callback: its savepoint is rolled back, and the call is submitted with
the returned input and the previewed writes (transactions.rs:485-506). -/
def submitDeferred (r : ClientRuntime C) (d : DeferredMutation) (refusal : Option String) (input : Option Json) :
    Attempt C SubmittedCall :=
  let (rolled, r) := r.ask api.sessionRollbackSavepoint
  match (match rolled with | .error e => some e | .ok _ => refusal) with
  | some e => (.error e, r)
  | none => match input with
    | none => (.error "Mutation callback must return input", r)
    | some input => r.ask (api.sessionSubmit d.name d.version input d.operations)

/-- Why a finished local callback fails its submission (transactions.rs:474-480). -/
def LocalCallback.refusal (l : LocalCallback) (ok : Bool) (error : Option String) (late : List Continuation) :
    Option String :=
  if !ok then some (error.getD "local callback failed")
  else if !late.isEmpty then some unawaited
  else l.failure

/-- What the submission of a finished local callback came to. -/
def submitLocal (r : ClientRuntime C) (l : LocalCallback) (refusal : Option String) (input : Option Json) :
    Attempt C SubmittedCall :=
  match l.deferred with
  | some d => submitDeferred api r d refusal input
  | none => match refusal with
    | some e => (.error e, r.onTransaction (·.poison e))
    | none => (.ok l.call, r)

/-- The call of a submission is provisional like any other. -/
def addCall (r : ClientRuntime C) (outcome : Except String SubmittedCall) : ClientRuntime C :=
  match outcome with
  | .ok call => r.onTransaction fun t => { t with calls := t.calls ++ [call.callId] }
  | .error _ => r

/-- The late commands of a finished local callback are closed, and its submission is answered. -/
def answerLocal (r : ClientRuntime C) (l : LocalCallback) (late : List Continuation)
    (outcome : Except String SubmittedCall) : ClientRuntime C :=
  let r := addCall r outcome
  let r := { r with effects := r.effects.remove l.effectId }
  (r.closeCommands late transactionClosed).complete l.requestId (outcome.map submission)

/-- `finish_local` (transactions.rs:461). -/
def finishLocal (r : ClientRuntime C) (ok : Bool) (error : Option String) (input : Option Json) : ClientRuntime C :=
  match r.transaction with
  | none => r
  | some t => match t.localCallback with
    | none => r
    | some l =>
      let late := t.lane.filter fun c => decide (c.companionId = some l.companionId)
      let lane := t.lane.filter fun c => !decide (c.companionId = some l.companionId)
      let (outcome, r) := submitLocal api { r with transaction := some { t with localCallback := none, lane } } l
        (l.refusal ok error late) input
      answerLocal r l late outcome

/-- A local callback still running was not awaited. -/
def closeLocal (r : ClientRuntime C) (l : Option LocalCallback) : ClientRuntime C :=
  match l with
  | some l => (r.cancelEffect l.effectId).complete l.requestId (.error transactionClosed)
  | none => r

/-- The end of a refused transaction (transactions.rs:599-605). -/
def rollBack (r : ClientRuntime C) (t : Transaction) (refusal : String) : ClientRuntime C :=
  let r := match r.ask api.rollbackSession with
    | (.ok _, r) => r
    | (.error e, r) => r.error ("transaction rollback failed: " ++ e)
  (r.callTransitions t.calls .rolledBack).complete t.owner (.error refusal)

/-- The calls leave their provisional state once the commit is known. -/
def announceCommit (r : ClientRuntime C) (t : Transaction) (committed : Except String Unit) : ClientRuntime C :=
  match committed with
  | .ok _ => (r.callTransitions t.calls .committed).announceResolved t.resolved
  | .error _ => r.callTransitions t.calls .rolledBack

/-- The commit of a transaction (transactions.rs:607-634); a failed one has rolled back inside the client. -/
def commit (r : ClientRuntime C) (t : Transaction) : ClientRuntime C :=
  let generation := api.generation r.client
  let (committed, r) := r.ask api.commitSession
  let r := wakeSince api (committedSince api (announceCommit r t committed) generation) generation
  r.complete t.owner (committed.map fun _ => .null)

/-- `finish_transaction` (transactions.rs:562). -/
def finishTransaction (r : ClientRuntime C) (ok : Bool) (error : Option String) : ClientRuntime C :=
  match r.transaction with
  | none => r
  | some t =>
    let r := closeLocal { r with transaction := none, effects := r.effects.remove t.effectId } t.localCallback
    let r := r.closeCommands t.lane transactionClosed
    match t.refusal ok error with
    | some refusal => rollBack api r t refusal
    | none => commit api r t

/-- `step_transaction` (transactions.rs:215). -/
def stepTransaction (r : ClientRuntime C) : Bool × ClientRuntime C :=
  match r.transaction with
  | none => (false, r)
  | some t => match t.finishing with
    | some (ok, error) =>
      (true, finishTransaction api { r with transaction := some { t with finishing := none } } ok error)
    | none => match t.localCallback.bind (·.finishing) with
      | some (ok, error, input) =>
        (true, finishLocal api (r.onTransaction fun t => { t with
          localCallback := t.localCallback.map fun l => { l with finishing := none } }) ok error input)
      | none => match t.lane with
        | [] => (false, r)
        | command :: lane =>
          let (outcome, r) := runCommand api { r with transaction := some { t with lane } } command
          (true, match outcome with
            | some outcome => r.complete command.requestId outcome
            | none => r)

end

end ClientRuntime

end Axton
