import Axton.Lib.Program
import Axton.Protocol.Mutation
import Axton.Server.Settlement

/-!
# Executing a batch on the server

Model of `crates/server/src/mutation_batch.rs` and of the batch entry points of `protocol_v05.rs`, over
the tables of one store: its row in `axton_store`, its rows of `axton_mutation_result` and the
application's business effects.

| here | there |
|------|-------|
| `Host.answer` | the SQL of postgres/src/sql.mts:44-59, savepoints, the application's handlers |
| `executeClaimed` | `execute_claimed` (mutation_batch.rs:82) |
| `executeMember`, `executeGroup` | `process_batch_member`, `process_batch_group` (protocol_v05.rs:132-195) |

A call is a program over host calls and runs in one transaction. What the application answers is free:
the stream admission, the handler, and the settling of its changes with the positions and rows it finds.
-/

namespace Axton

namespace Server

/-! ## Tables -/

/-- The row of a store, and the copy a transaction works on (`Store`, mutation_batch.rs:20). -/
structure Store where
  principal : String
  stream : String
  lastProcessedBatchId : Nat := 0
  progress : Nat := 0
  currentDigest : Option (Digest BatchBody) := none
  currentCount : Option Nat := none
  lastDigest : Option (Digest BatchBody) := none
  lastCount : Option Nat := none
deriving DecidableEq

/-- A batch and the ordinal of one of its members. -/
abbrev Member := Nat × Nat

/-- The committed tables of one store. `journal` is a history variable: every result ever inserted,
also those a later batch pruned. -/
structure Tables where
  store : Option Store := none
  results : Table Member MutationResult := []
  effects : List Member := []
  journal : Table Member MutationResult := []
deriving DecidableEq

/-- The tables inside a transaction, with its savepoints. -/
structure Database where
  tables : Tables := {}
  savepoints : Table Nat Tables := []
deriving DecidableEq

/-- The row after members up to `upto` of a batch are saved: in the table (`V05_RESULT_SAVE`,
`V05_RESULTS_SAVE`) and in the copy (`Store::save`). -/
def Store.advance (s : Store) (batchId upto count : Nat) : Store :=
  if upto = count then
    { s with
      progress := 0
      lastProcessedBatchId := batchId
      lastDigest := s.currentDigest
      lastCount := s.currentCount
      currentDigest := none
      currentCount := none }
  else { s with progress := upto }

/-! ## The host -/

inductive Handled where
  | rejected (code : String)
  | failed (error : String)
  | settled
deriving DecidableEq, Repr

/-- The answer decodes (server_bridge/mod.rs:535). -/
def Handled.decodes : Handled → Bool
  | .rejected code => validCode code
  | _ => true

/-- How the changes of a settled handler ended: the head, the assembled result, and the position and the
canonical row of each input record; or a loader's refusal, or an error. -/
inductive Settled where
  | accepted (syncCursor : Nat) (result : Json) (positions : List (Option MemberPosition)) (rows : List (Option Json))
  | refused (code : String)
  | failed (error : String)
deriving DecidableEq

/-- The answers decode (server_bridge/mod.rs:351,384, members.rs:227). -/
def Settled.decodes : Settled → Bool
  | .accepted syncCursor _ positions _ => counter syncCursor && positions.all fun p => p.all fun p => positive p.cursor
  | .refused code => validCode code
  | .failed _ => true

inductive Op where
  | claimStore (principal stream : String)
  | admission (owner : String) (context : RequestContext)
  | readResult (batchId ordinal : Nat)
  | beginBatch (batchId : Nat) (digest : Digest BatchBody) (count : Nat)
  | savepoint (ordinal : Nat)
  | handleAction (batchId ordinal : Nat) (m : Mutation) (args : Json)
  | settleChanges (batchId ordinal : Nat) (m : Mutation) (args : Json)
  | rollback (ordinal : Nat)
  | release (ordinal : Nat)
  | saveResult (batchId ordinal count : Nat) (result : MutationResult)
  | saveResults (batchId ordinal count : Nat) (digest : Digest BatchBody) (results : List MutationResult)

inductive Ans where
  | store (s : Store)
  | allowed (b : Bool)
  | result (r : Option MutationResult)
  | handled (h : Handled)
  | settled (x : Settled)
  | acknowledged
deriving DecidableEq

namespace Ans

def store? : Ans → Option Store
  | .store s => some s
  | _ => none

def allowed? : Ans → Option Bool
  | .allowed b => some b
  | _ => none

def result? : Ans → Option (Option MutationResult)
  | .result r => some r
  | _ => none

def handled? : Ans → Option Handled
  | .handled h => if h.decodes then some h else none
  | _ => none

def settled? : Ans → Option Settled
  | .settled x => if x.decodes then some x else none
  | _ => none

def acknowledged? : Ans → Option Unit
  | .acknowledged => some ()
  | _ => none

end Ans

namespace Tables

/-- `V05_BATCH_BEGIN`: the guarded update and the pruning of older results. -/
def beginBatch (t : Tables) (batchId : Nat) (digest : Digest BatchBody) (count : Nat) : Option Tables :=
  match t.store with
  | none => none
  | some s =>
    if s.lastProcessedBatchId + 1 = batchId ∧ s.currentDigest = none ∧ s.progress = 0 then
      some { t with
        store := some { s with currentDigest := some digest, currentCount := some count }
        results := t.results.filter fun e => decide (batchId ≤ e.1.1) }
    else none

/-- One inserted result: `PRIMARY KEY(store_id,batch_id,mutation_id)`, `UNIQUE(store_id,batch_id,ordinal)`. -/
def insertResult (t : Tables) (e : Member × MutationResult) : Option Tables :=
  if t.results.any fun r => r.1.1 = e.1.1 && (r.1.2 = e.1.2 || r.2.mutationId = e.2.mutationId) then none
  else some { t with results := t.results ++ [e], journal := t.journal ++ [e] }

/-- A contiguous suffix of results as rows. -/
def suffix (batchId ordinal : Nat) (results : List MutationResult) : Table Member MutationResult :=
  results.zipIdx.map fun e => ((batchId, ordinal + e.2), e.1)

/-- `V05_RESULT_SAVE` and `V05_RESULTS_SAVE` after their guards: progress and results together. -/
def insertResults (t : Tables) (s : Store) (batchId ordinal count : Nat) (results : List MutationResult) : Option Tables :=
  (suffix batchId ordinal results).foldlM insertResult
    { t with store := some (s.advance batchId (ordinal + results.length) count) }

def saveResult (t : Tables) (batchId ordinal count : Nat) (result : MutationResult) : Option Tables :=
  match t.store with
  | none => none
  | some s =>
    if s.lastProcessedBatchId + 1 = batchId ∧ s.progress = ordinal ∧ s.currentCount = some count then
      t.insertResults s batchId ordinal count [result]
    else none

/-- `saveResults` (persistence.mts:256): one to 32 results inside the batch. -/
def saveResults (t : Tables) (batchId ordinal count : Nat) (digest : Digest BatchBody)
    (results : List MutationResult) : Option Tables :=
  match t.store with
  | none => none
  | some s =>
    if results ≠ [] ∧ results.length ≤ 32 ∧ ordinal + results.length ≤ count ∧
        s.lastProcessedBatchId + 1 = batchId ∧ s.progress = ordinal ∧ s.currentCount = some count ∧
        s.currentDigest = some digest then
      t.insertResults s batchId ordinal count results
    else none

end Tables

/-- The database with new tables, when a statement succeeded. -/
def Database.with (d : Database) (t : Option Tables) : Option Database := t.map fun t => { d with tables := t }

/-- What a host call does when it answers; without an answer the statement failed. -/
def Host.answer : Op → Database → Ans → Option Database
  | .claimStore principal stream, d, .store x =>
    let row := d.tables.store.getD { principal, stream }
    if x = row then some { d with tables := { d.tables with store := some row } } else none
  | .admission _ _, d, .allowed _ => some d
  | .readResult batchId ordinal, d, .result r => if r = d.tables.results.get (batchId, ordinal) then some d else none
  | .beginBatch batchId digest count, d, .acknowledged => d.with (d.tables.beginBatch batchId digest count)
  | .savepoint ordinal, d, .acknowledged => some { d with savepoints := d.savepoints.set ordinal d.tables }
  | .handleAction batchId ordinal _ _, d, .handled _ =>
    some { d with tables := { d.tables with effects := d.tables.effects ++ [(batchId, ordinal)] } }
  | .settleChanges _ _ _ _, d, .settled _ => some d
  | .rollback ordinal, d, .acknowledged => d.with (d.savepoints.get ordinal)
  | .release ordinal, d, .acknowledged => some { d with savepoints := d.savepoints.erase ordinal }
  | .saveResult batchId ordinal count result, d, .acknowledged =>
    d.with (d.tables.saveResult batchId ordinal count result)
  | .saveResults batchId ordinal count digest results, d, .acknowledged =>
    d.with (d.tables.saveResults batchId ordinal count digest results)
  | _, _, _ => none

def Host.Answers (op : Op) (d : Database) (x : Ans) (d' : Database) : Prop := Host.answer op d x = some d'

/-! ## Members -/

section
variable (P : Platform) (H : Hashes) (config : Config)

/-- `input_path.split('[').next()`. -/
def pathSlot (path : String) : String := String.ofList (path.toList.takeWhile (· ≠ '['))

/-- An operation fits the slot its path names (protocol_v05.rs:46-70). -/
def fitsSlot (o : MutationOperation) : ActionInput → Except String Unit
  | .value .. => check (o.operation = .argument) "value input must be argument"
  | .model _ model operation _ _ _ =>
    if o.operation = .argument then
      check (o.value.isNull || o.value = .arr []) "Model argument must be null or empty list"
    else check (o.model = some model && o.operation = operation.wire) "Model slot operation mismatch"

/-- `validate_member` (protocol_v05.rs:34): the normalized arguments, or nothing when the server does
not know the action's version. -/
def validateMember (m : Mutation) : Except String (Option Json) :=
  match config.schema.actions.find? fun a => a.name = m.name && a.version = m.version with
  | none => .ok none
  | some action => do
    check (action.kind = .mutation) "expected Mutation"
    m.operations.forM fun o => match action.inputs.find? (·.name = pathSlot o.inputPath) with
      | none => .error "unknown input path"
      | some input => fitsSlot o input
    let args ← reconstructInput m.operations
    let normalized ← normalizeActionArgs P config.schema action args
    return some normalized

abbrev Program := Prog Op Ans

/-- `Store::claim` (mutation_batch.rs:33). -/
def claim (owner : String) (q : MutationRequest) : Program Store :=
  if nonblank owner then Prog.expect (.claimStore owner q.context.stream) Ans.store?
  else Prog.fail "principal.invalid"

/-- The batch is the last processed one, or the next one (mutation_batch.rs:105-127). -/
def Store.admitBatch (s : Store) (q : MutationRequest) : Except String Bool := do
  let completed : Bool := q.batchId = s.lastProcessedBatchId
  check (completed || q.batchId = s.lastProcessedBatchId + 1) "batch.sequence"
  let digest := if completed then s.lastDigest else s.currentDigest
  let size := if completed then s.lastCount else s.currentCount
  check (!(completed || digest.isSome) || (digest = some q.digest && size = some q.mutations.length)) "batch.conflict"
  return completed

/-- A member that is saved is answered with its result (mutation_batch.rs:128-135). -/
def replayMember (q : MutationRequest) (ordinal : Nat) (m : Mutation) : Program MutationResult := do
  let saved ← Prog.expect (.readResult q.batchId ordinal) Ans.result?
  match saved with
  | none => Prog.fail "committed member result missing"
  | some r => do
    Prog.lift (check (r.mutationId = m.id) "saved member mismatch")
    return r

/-- The first member of a batch begins it (mutation_batch.rs:139-143). -/
def beginIfNew (q : MutationRequest) (s : Store) : Program Store :=
  if s.currentDigest.isNone then do
    Prog.expect (.beginBatch q.batchId q.digest q.mutations.length) Ans.acknowledged?
    return { s with currentDigest := some q.digest, currentCount := some q.mutations.length }
  else return s

/-! ### Settlement targets -/

/-- The identity fields of an input value (actions.rs:35-43). -/
def identityOf (m : ModelDescriptor) (entry : Json) : Json :=
  .obj (m.identity.foldl (fun acc f => match entry.field f with
    | some v => Fields.insert acc f v
    | none => acc) [])

/-- One entry of `input_identities` (actions.rs:28-49). -/
def inputIdentity (model : String) (entry : Json) : Except String Json :=
  match config.schema.model model with
  | .error _ => .error "action.invalid"
  | .ok m => match config.schema.recordKey P model (identityOf m entry) with
    | .error _ => .error "action.invalid"
    | .ok k => .ok k.identity

/-- `input_identities` (actions.rs:5). -/
def inputIdentities (model : String) (cardinality : Cardinality) (value : Json) : Except String (List Json) := do
  let entries ← match cardinality with
    | .list => match value.asArray with
      | some xs => .ok xs
      | none => .error "action.invalid"
    | .optional => .ok (if value.isNull then [] else [value])
    | .single => .ok [value]
  entries.mapM (inputIdentity P config model)

/-- The keys one input names. -/
def slotKeys (args : Json) : ActionInput → Except String (List RecordKey)
  | .value .. => .ok []
  | .model name model _ cardinality _ _ => do
    let identities ← inputIdentities P config model cardinality (args.index name)
    identities.mapM (config.schema.recordKey P model)

/-- The records a member's inputs name, by canonical text (mutation_batch.rs:199-217). -/
def inputKeys (a : ActionDescriptor) (args : Json) : Except String (List RecordKey) := do
  let keys ← a.inputs.mapM (slotKeys P config args)
  let changes := Table.setAll [] (keys.flatten.map fun k => (k.encoded P, k))
  return (changes.insertionSort fun a b => a.1 ≤ b.1).map (·.2)

/-- `load_state` (action_results.rs:44). -/
def loadState (versions : Table String Nat) (key : RecordKey) (row : Option Json) : Except String Json :=
  match versions.get key.model with
  | none => .error "Model outside descriptor"
  | some version => match row with
    | none => .ok .null
    | some row => match config.contract key.model version with
      | none => .error "model_version_unsupported"
      | some schema => match schema.normalizeState P key.model row with
        | .error _ => .error "loader.invalid"
        | .ok state => .ok state

/-- The target of one input record (mutation_batch.rs:223-264). -/
def settlementTarget (stream : String) (versions : Table String Nat) (key : RecordKey)
    (position : Option MemberPosition) (row : Option Json) : Except String SettlementTarget := do
  let state ← loadState P config versions key row
  match position with
  | none => return .privately ⟨key, state⟩
  | some p =>
    if p.kind = .upsert then do
      check (p.key = key && p.stream = stream) "target position mismatch"
      return .stream key p.cursor ⟨key, state⟩
    else return .privately ⟨key, state⟩

def settlementTargets (stream : String) (versions : Table String Nat) (keys : List RecordKey)
    (positions : List (Option MemberPosition)) (rows : List (Option Json)) : Except String (List SettlementTarget) := do
  check (positions.length = keys.length) "target position count mismatch"
  check (rows.length = keys.length) "loader.invalid"
  (keys.zip (positions.zip rows)).mapM fun e => settlementTarget P config stream versions e.1 e.2.1 e.2.2

/-- The outcome of an accepted member. -/
def acceptMember (q : MutationRequest) (m : Mutation) (args : Json) (syncCursor : Nat) (result : Json)
    (positions : List (Option MemberPosition)) (rows : List (Option Json)) : Except String MutationOutcome := do
  let action ← config.schema.action m.name m.version
  let versions ← models H config q.context.materialization
  let keys ← inputKeys P config action args
  let targets ← settlementTargets P config q.context.stream versions keys positions rows
  let result ← validateActionResult P config.schema action result
  return .accepted syncCursor result targets

/-- Undo the member's effects and refuse it. -/
def refuseMember (ordinal : Nat) (code : String) : Program MutationOutcome := do
  Prog.expect (.rollback (ordinal + 1)) Ans.acknowledged?
  return .rejected code none

/-- The outcome of a handled member (mutation_batch.rs:177-300). -/
def settleMember (q : MutationRequest) (ordinal : Nat) (m : Mutation) (args : Json) : Handled → Program MutationOutcome
  | .rejected code => refuseMember ordinal code
  | .failed _ => Prog.fail "handler.failed"
  | .settled => do
    let settled ← Prog.expect (.settleChanges q.batchId ordinal m args) Ans.settled?
    match settled with
    | .accepted syncCursor result positions rows => Prog.lift (acceptMember P H config q m args syncCursor result positions rows)
    | .refused code => refuseMember ordinal code
    | .failed e => Prog.fail e

/-- The handler in its savepoint (mutation_batch.rs:158-309). -/
def handleMember (q : MutationRequest) (ordinal : Nat) (m : Mutation) (args : Json) : Program MutationOutcome := do
  Prog.expect (.savepoint (ordinal + 1)) Ans.acknowledged?
  let handled ← Prog.expect (.handleAction q.batchId ordinal m args) Ans.handled?
  let outcome ← settleMember P H config q ordinal m args handled
  Prog.expect (.release (ordinal + 1)) Ans.acknowledged?
  return outcome

/-- `Store::save` (mutation_batch.rs:46): the group path leaves the row for later. -/
def saveMember (q : MutationRequest) (ordinal : Nat) (r : MutationResult) (persist : Bool) (s : Store) :
    Program Store := do
  if persist then Prog.expect (.saveResult q.batchId ordinal q.mutations.length r) Ans.acknowledged?
  return s.advance q.batchId (ordinal + 1) q.mutations.length

/-- The outcome of a member whose action the server knows, or does not (mutation_batch.rs:144-157). -/
def memberOutcome (q : MutationRequest) (ordinal : Nat) (m : Mutation) : Option Json → Program MutationOutcome
  | none => return .rejected "mutation_version_unsupported" none
  | some args => handleMember P H config q ordinal m args

/-- A member that is due is executed and saved (mutation_batch.rs:136-318). -/
def runMember (q : MutationRequest) (ordinal : Nat) (m : Mutation) (persist : Bool) (s : Store) :
    Program (MutationResult × Store) := do
  let s ← beginIfNew q s
  let args ← Prog.lift (validateMember P config m)
  let outcome ← memberOutcome P H config q ordinal m args
  let s ← saveMember q ordinal ⟨m.id, outcome⟩ persist s
  return (⟨m.id, outcome⟩, s)

/-- `execute_claimed` (mutation_batch.rs:82). -/
def executeClaimed (owner : String) (q : MutationRequest) (ordinal : Nat) (persist : Bool) (s : Store) :
    Program (MutationResult × Store) :=
  match q.mutations[ordinal]? with
  | none => Prog.fail "member ordinal out of range"
  | some m => do
    Prog.lift (check (s.principal = owner && s.stream = q.context.stream) "store.binding")
    let _ ← Prog.lift (models H config q.context.materialization)
    let allowed ← Prog.expect (.admission owner q.context) Ans.allowed?
    Prog.lift (check allowed "stream.forbidden")
    let completed ← Prog.lift (s.admitBatch q)
    if completed || ordinal < s.progress then do
      let r ← replayMember q ordinal m
      return (r, s)
    else do
      Prog.lift (check (ordinal = s.progress) "batch.progress")
      runMember P H config q ordinal m persist s

/-! ## Calls -/

/-- `process_batch_member` (protocol_v05.rs:132) over `execute` (mutation_batch.rs:67). -/
def executeMember (owner : String) (q : MutationRequest) (ordinal : Nat) : Program (List MutationResult) := do
  Prog.lift q.validate
  Prog.lift (q.mutations.forM fun m => do let _ ← validateMember P config m)
  Prog.lift (check (ordinal < q.mutations.length) "member ordinal out of range")
  let s ← claim owner q
  let (r, _) ← executeClaimed P H config owner q ordinal true s
  return [r]

/-- `Store::saved` (mutation_batch.rs:43). -/
def Store.saved (s : Store) (q : MutationRequest) (ordinal : Nat) : Bool :=
  q.batchId = s.lastProcessedBatchId || ordinal < s.progress

/-- The loop state of `process_batch_group`. -/
structure Group where
  store : Store
  results : List MutationResult := []
  pending : List MutationResult := []
  first : Option Nat := none

/-- One iteration (protocol_v05.rs:170-189): its result is pending when it is new. -/
def groupMember (owner : String) (q : MutationRequest) (g : Group) (ordinal : Nat) : Program Group := do
  let fresh := !g.store.saved q ordinal
  let (r, s) ← executeClaimed P H config owner q ordinal false g.store
  return if fresh then
      { store := s, results := g.results ++ [r], pending := g.pending ++ [r], first := g.first.orElse fun _ => some ordinal }
    else { g with store := s, results := g.results ++ [r] }

/-- `process_batch_group` (protocol_v05.rs:147): members `start..start+count` in one transaction, their
results saved together at its end. -/
def executeGroup (owner : String) (q : MutationRequest) (start count : Nat) : Program (List MutationResult) := do
  Prog.lift q.validate
  Prog.lift (check (count ≠ 0 && count ≤ 32 && start + count ≤ q.mutations.length) "invalid Mutation group range")
  Prog.lift (q.mutations.forM fun m => do let _ ← validateMember P config m)
  let s ← claim owner q
  let g ← (List.range' start count).foldlM (groupMember P H config owner q) { store := s }
  match g.first with
  | none => return g.results
  | some ordinal => do
    Prog.expect (.saveResults q.batchId ordinal q.mutations.length q.digest g.pending) Ans.acknowledged?
    return g.results

end

/-- A call of the batch path: one member, or a group. The server may have been reconfigured since an
earlier call. -/
inductive Call where
  | member (config : Config) (owner : String) (q : MutationRequest) (ordinal : Nat)
  | group (config : Config) (owner : String) (q : MutationRequest) (start count : Nat)

namespace Call

def body (P : Platform) (H : Hashes) : Call → Program (List MutationResult)
  | .member config owner q ordinal => executeMember P H config owner q ordinal
  | .group config owner q start count => executeGroup P H config owner q start count

def request : Call → MutationRequest
  | .member _ _ q _ => q
  | .group _ _ q _ _ => q

/-- The ordinal of the first result a call returns. -/
def start : Call → Nat
  | .member _ _ _ ordinal => ordinal
  | .group _ _ _ start _ => start

end Call

end Server

end Axton
