import Axton.Client.Store

/-!
# The bridge between an SDK and its runtime

Model of the types of `crates/protocols/src/client_bridge/mod.rs`: what an SDK sends (`Input`) and what
the runtime answers (`Event`). Every envelope is already decoded here; a command that did not decode is
`Command.malformed`, as there.

| here | there |
|------|-------|
| `Read` | the six reads that `Command` and `TransactionCommand` share |
| `Inspect` | the reads only a task may ask for (`Status` … `RejectionGet`) |
| `Axton.Operation` | `model::Operation`: the record key and the values of a write |
| `Operation` | `Operation`, less `Socket`, which the runtime never asks for |
-/

namespace Axton

/-- `json!({..})`: the entries in key order. -/
def Json.ofEntries (entries : List (String × Json)) : Json := .obj (Fields.extend [] entries)

/-- `value[name] = field` on an object. -/
def Json.setField (v : Json) (name : String) (field : Json) : Json := .obj (Fields.insert v.fields name field)

/-- An `Option` as serde writes it: a missing value is null. -/
def Json.optional {α : Type} (f : α → Json) : Option α → Json
  | some a => f a
  | none => .null

def Json.nat (n : Nat) : Json := .num (.posInt n)

namespace Bridge

/-! ## Commands -/

inductive Direction where
  | ascending | descending
deriving DecidableEq, Repr

structure QueryOrder where
  field : String
  direction : Direction
deriving DecidableEq, Repr

structure QuerySpec where
  filter : Fields := []
  orderBy : List QueryOrder := []
  limit : Option Nat := none
deriving DecidableEq

inductive Read where
  | read (key : RecordKey)
  | query (model : String) (filter : Option Json)
  | sql (sql : String) (parameters : List Json)
  | querySpec (model : String) (query : QuerySpec)
  | related (key : RecordKey) (relation : String)
  | referencing (key : RecordKey) (source relation : String)
deriving DecidableEq

inductive Inspect where
  | status
  | recordStatus (key : RecordKey)
  | callCompletion (callId : String)
  | tasks
  | streamState (stream : String)
  | streamBootstrapState (stream : String) (subscriptionId : Nat)
  | rejectionGet (id : Nat)
deriving DecidableEq

inductive Readiness where
  | pending | ready | failed
deriving DecidableEq, Repr

inductive UnsentView where
  | rejections | failures | pending
deriving DecidableEq, Repr

inductive ConnectionEvent where
  | pause | resume | wake | stop
deriving DecidableEq, Repr

structure WatchSpec where
  filter : Option Json := none
  delivery : Option String := none
deriving DecidableEq

inductive Command where
  | read (r : Read)
  | inspect (i : Inspect)
  | direct (operation : Axton.Operation)
  | submitAction (name : String) (version : Nat) (args : Json) (store : Option Json)
  | readiness (key : String) (state : Readiness)
  | drop (ordinal : Nat)
  | dismiss (ordinal : Nat)
  | resetStore (discardPending : Option Bool)
  | streamSubscribe (stream : String)
  | streamBootstrap (stream : String) (subscriptionId : Nat)
  | transaction
  | connect (directTimeoutMs : Option Nat) (refreshAuth : Option Bool)
  | connection (event : ConnectionEvent)
  | invoke (name : String) (version : Nat) (args : Json) (store : Option Json)
  | fetch (model : String) (version : Nat) (identity : Json) (store : Option Json)
  | watch (model : String) (spec : Option WatchSpec)
  | watchSql (sql : String) (parameters : List Json)
  | watchSnapshot (observerId : String)
  | unwatch (observerId : String)
  | unsentWatch (view : UnsentView)
  | retryTasks (keys : List String)
  | discard (ordinal : Nat)
  | malformed (error : String)
deriving DecidableEq

/-- A command of the application callback that owns a transaction. -/
inductive TransactionCommand where
  | read (r : Read)
  | direct (operation : Axton.Operation)
  | submitMutation (name : String) (version : Nat) (args : Json) (store localFlag : Option Json)
  | dismiss (ordinal : Nat)
  | retryTasks (keys : List String)
  | discard (ordinal : Nat)
  | savepoint
  | release (scope : Option String)
  | rollbackSavepoint (scope : Option String)
  | malformed (error : String)
deriving DecidableEq

/-! ## Effects -/

inductive HttpRoute where
  | handshake | materialize | push | pull | action | fetch
deriving DecidableEq, Repr

inductive Operation where
  | callback (transactionId requestId : String)
  | mutationLocal (transactionId companionId requestId : String)
  | http (route : HttpRoute) (body : String)
  | timer (millis : Nat)
  | refreshAuth
  | prerequisite (key name : String) (arguments : Json)
deriving DecidableEq

structure EffectError where
  message : String
  status : Option Nat := none
  refusal : Option String := none
  retry : Bool := false
deriving DecidableEq

structure EffectOutcome where
  ok : Bool
  value : Option Json := none
  error : Option EffectError := none
deriving DecidableEq

/-! ## Inputs and events -/

inductive Input where
  | task (requestId : String) (command : Command)
  | transactionCommand (requestId transactionId : String) (scope companionId : Option String)
      (command : TransactionCommand)
  | callbackResult (effectId transactionId : String) (companionId : Option String) (ok : Bool)
      (error : Option String) (input : Option Json)
  | effectResult (effectId : String) (outcome : EffectOutcome)
  | close

/-- The request an input asks to have answered. -/
def Input.requestId : Input → Option String
  | .task id _ => some id
  | .transactionCommand id _ _ _ _ => some id
  | _ => none

/-- `Diagnostic`; the reported records are kept as their JSON. -/
inductive Diagnostic where
  | records (reports : List Json)
  | error (message : String) (status : Option Nat)
  | refused (message : String) (status : Nat) (body : Json)
  | protocol (message : String)
deriving DecidableEq

inductive CallTransition where
  | committed | rolledBack
deriving DecidableEq, Repr

inductive Event where
  | taskCompleted (requestId : String) (ok : Bool) (value : Json) (error : Option String) (details : Option Json)
  | effect (effectId : String) (operation : Operation)
  | cancelEffect (effectId : String)
  | callCompleted (callId : String) (outcome : Json)
  | transactionCallState (callId : String) (state : CallTransition)
  | observerChanged (observerId : String) (snapshot : Json)
  | report (diagnostic : Diagnostic)
  | runtimeClosed
deriving DecidableEq

/-- The request an event is the terminal outcome of. -/
def Event.completes : Event → Option String
  | .taskCompleted id _ _ _ _ => some id
  | _ => none

end Bridge

end Axton
