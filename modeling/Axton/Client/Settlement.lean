import Axton.Client.Batch
import Axton.Lib.Pointwise
import Mathlib.Logic.Relation

/-!
# Receipts, refusal and settlement

Model of the first half of `crates/client/src/settlement05.rs`: recorded outcomes and completions,
`acknowledge05`, `reject_owned05` with its lifecycle closure, `reconcile_ready05` and the local
cancellation of an unsent call.
-/

namespace Axton

/-- A key after its saved text is parsed again. -/
def Platform.rereadKey (P : Platform) (k : RecordKey) : RecordKey := { k with identity := P.reread k.identity }

/-- A read snapshot after its saved text is parsed again. -/
def Platform.rereadRecord (P : Platform) (r : ReadRecord) : ReadRecord :=
  { r with key := P.rereadKey r.key, state := P.reread r.state }

def Platform.rereadTarget (P : Platform) : SettlementTarget → SettlementTarget
  | .stream k c fallback => .stream (P.rereadKey k) c (P.rereadRecord fallback)
  | .privately r => .privately (P.rereadRecord r)

/-- `outcome05` (settlement05.rs:42): the recorded outcome of a call. -/
def MutationRow.outcome (P : Platform) (r : MutationRow) : Option MutationOutcome :=
  match r.rejectionCode with
  | some code => some (.rejected code r.rejectionMessage)
  | none => match r.syncCursor with
    | none => none
    | some c => some (.accepted c (P.reread (r.result.getD .null)) (r.targets.map P.rereadTarget))

inductive ActionOutcome where
  | succeeded (result : Json)
  | failed (code : String)
deriving DecidableEq

structure CallCompletion where
  callId : String
  outcome : ActionOutcome
deriving DecidableEq

/-- `format!("{}:{id}", store_id)`. -/
def callId (s : Store) (id : Nat) : String := s.row.id ++ ":" ++ toString id

/-- What a recorded outcome completes a call with (`completion05`, settlement05.rs:60). -/
def MutationOutcome.completed : MutationOutcome → ActionOutcome
  | .accepted _ result _ => .succeeded result
  | .rejected code _ => .failed code

structure ApplyReport where
  applied : Nat := 0
  reports : List (RecordKey × Nat) := []
  completions : List CallCompletion := []
deriving DecidableEq

/-- A refusal: its code and message. -/
abbrev Rejection := String × Option String

namespace Engine

/-! ## The lifecycle closure -/

/-- One dependency row of the closure loop (settlement05.rs:170-176). -/
def closeEdge (rejected : Table Nat Rejection) (d : Dependency) : Table Nat Rejection :=
  if d.kind = .lifecycle && (rejected.get d.dependsOn).isSome && (rejected.get d.ordinal).isNone then
    rejected.set d.ordinal ("dependency.rejected", none)
  else rejected

/-- One pass over the dependency rows; additions count for the rows after them. -/
def closePass (deps : List Dependency) (rejected : Table Nat Rejection) : Table Nat Rejection :=
  deps.foldl closeEdge rejected

/-- The loop of `reject_owned05` (settlement05.rs:165-181): passes until one adds nothing. Each pass
but the last adds a call, so the row count bounds it. -/
def closeRejected (deps : List Dependency) : Nat → Table Nat Rejection → Table Nat Rejection
  | 0, rejected => rejected
  | fuel + 1, rejected =>
    let next := closePass deps rejected
    if next.length = rejected.length then rejected else closeRejected deps fuel next

/-- The calls refused with `rejected`, by id. -/
def refused (s : Store) (rejected : Table Nat Rejection) : Table Nat Rejection :=
  (closeRejected s.dependencies (s.dependencies.length + 1) rejected).insertionSort fun a b => a.1 ≤ b.1

/-- A lifecycle dependency row from one call to a later one. -/
def LifecycleEdge (deps : List Dependency) (a b : Nat) : Prop := ∃ d ∈ deps, d.kind = .lifecycle ∧ d.dependsOn = a ∧ d.ordinal = b

/-- `UPDATE axton_mutation_queue SET rejection_code, rejection_message, reconciled=1`. -/
def rejectRow (rejected : Table Nat Rejection) (r : MutationRow) : MutationRow :=
  match rejected.get r.id with
  | some (code, message) => { r with rejectionCode := some code, rejectionMessage := message, reconciled := true }
  | none => r

def rejectRows (rejected : Table Nat Rejection) (s : Store) : Store :=
  { s with queue := s.queue.map (rejectRow rejected) }

section
variable (E : Engine)

/-- `reject_owned05` (settlement05.rs:160). -/
def rejectOwned (rejected : Table Nat Rejection) (s : Store) : Except String (ApplyReport × Store) := do
  let closed := refused s rejected
  let held := closed.flatMap fun e => (s.callOps e.1).map (·.op.key)
  check (closed.all fun e => (s.mutation e.1).isSome) "outcome missing"
  let completions := closed.map fun e => (⟨callId s e.1, .failed e.2.1⟩ : CallCompletion)
  let (reports, t) ← (E.rebuildHeld held).run (rejectRows closed s)
  return ({ reports, completions }, t)

/-! ## Acknowledgement -/

/-- An accepted result answers its action and its targets are canonical (settlement05.rs:103-131). -/
def validateResult (s : Store) (x : MutationResult) : Except String Unit :=
  match x.outcome with
  | .rejected _ _ => .ok ()
  | .accepted _ value targets => do
    let some row := s.mutation x.mutationId | .error "unknown Mutation"
    let schema ← s.retainedSchema row.descriptor
    let action ← schema.action row.name row.version
    let _ ← validateActionResult E.platform schema action value
    targets.forM fun t => do
      let canonical ← schema.recordKey E.platform t.key.model t.key.identity
      check (canonical = t.key) "noncanonical settlement identity"
      if t.record.state.isNull then .ok ()
      else do
        let _ ← schema.validateState E.platform t.key.model t.record.state
        .ok ()

/-- The refusals of a receipt. -/
def rejections (a : BatchAcknowledgement) : Table Nat Rejection :=
  a.results.filterMap fun x => match x.outcome with
    | .rejected code message => some (x.mutationId, (code, message))
    | .accepted _ _ _ => none

/-- `UPDATE axton_mutation_queue SET sync_cursor, result, targets` of the accepted members. -/
def acceptRow (a : BatchAcknowledgement) (r : MutationRow) : MutationRow :=
  match a.result r.id with
  | some ⟨_, .accepted syncCursor result targets⟩ =>
    { r with syncCursor := some syncCursor, result := some result, targets := targets }
  | _ => r

def acceptRows (a : BatchAcknowledgement) (s : Store) : Store := { s with queue := s.queue.map (acceptRow a) }

/-- A replayed receipt must repeat what is recorded (settlement05.rs:84-104). -/
def replayAcknowledgement (a : BatchAcknowledgement) (s : Store) : Except String Unit := do
  let rows := batchRows s a.batchId
  check (rows.length = a.results.length && !rows.isEmpty) "unknown acknowledged Batch"
  rows.forM fun r => match a.result r.id with
    | none => .error "acknowledgement membership mismatch"
    | some x => check (r.batchDigest = some a.digest &&
        r.batchMaterialization = some a.context.materialization &&
        r.outcome E.platform = some x.outcome) "acknowledgement replay differs"

/-- `acknowledge05` (settlement05.rs:74). -/
def acknowledge (a : BatchAcknowledgement) (s : Store) : Except String (ApplyReport × Store) := do
  a.validate E.platform
  a.context.admitStore s.context
  if a.batchId ≤ s.row.lastAcknowledgedBatchId then do
    E.replayAcknowledgement a s
    return ({}, s)
  else do
    check (a.batchId = s.row.lastAcknowledgedBatchId + 1) "Batch acknowledgement skipped"
    let request ← E.reconstructBatch s a.batchId
    validateAcknowledgement E.platform request a
    a.results.forM (E.validateResult s)
    let (report, t) ← E.rejectOwned (rejections a) (acceptRows a s)
    return (report, { t with row := { t.row with lastAcknowledgedBatchId := a.batchId } })

/-! ## Cancellation -/

/-- `acknowledge_rejection05` (settlement05.rs:749), the body of `dismiss_rejection05`. -/
def dismiss (id : Nat) (s : Store) : Except String (Unit × Store) :=
  match s.mutation id with
  | none => .ok ((), s)
  | some r => do
    check (r.rejectionCode.isSome && r.reconciled) "completed rejection required"
    return ((), { s with
      queue := s.queue.map fun r => if r.id = id then { r with rejectionAcknowledged := true } else r
      operations := s.operations.filter (·.mutationId ≠ id)
      prerequisites := s.prerequisites.filter (·.ordinal ≠ id)
      dependencies := s.dependencies.filter fun d => d.ordinal ≠ id && d.dependsOn ≠ id })

/-- `cancel_unsent05` (settlement05.rs:701): drop, or discard when `acknowledged`. -/
def cancelUnsent (id : Nat) (acknowledged : Bool) (s : Store) : Except String (ApplyReport × Store) :=
  match s.mutation id with
  | none => .error "unknown Mutation"
  | some r => do
    check r.batchId.isNone "possibly sent Mutation cannot be discarded"
    if r.reconciled then return ({}, s)
    else do
      let (report, t) ← E.rejectOwned [(id, ("dropped", none))] s
      if acknowledged then do
        let (_, u) ← dismiss id t
        return (report, u)
      else return (report, t)

end

end Engine

/-! ## What settlement may change -/

/-- The input rows of a call. -/
def Store.inputs (s : Store) (id : Nat) : List OperationRow :=
  s.operations.filter fun o => o.mutationId = id && o.inputPath.isSome

/-- A queue row that settlement may have completed. -/
def SettleRow (r r' : MutationRow) : Prop :=
  r'.core = r.core ∨
    (r.syncCursor.isSome ∧ r.rejectionCode = none ∧ r'.core = { r.core with reconciled := true })

theorem SettleRow.id_eq {r r' : MutationRow} (h : SettleRow r r') : r'.id = r.id := by
  have hid : ∀ x : MutationRow, x.core.id = x.id := fun _ => rfl
  rcases h with h | ⟨-, -, h⟩ <;> rw [← hid r', h] <;> rfl

theorem SettleRow.refl (r : MutationRow) : SettleRow r r := .inl rfl

theorem core_eq {r r' : MutationRow} (h : r'.core = r.core) :
    r'.syncCursor = r.syncCursor ∧ r'.rejectionCode = r.rejectionCode ∧ r'.reconciled = r.reconciled := by
  have e := MutationRow.mk.injEq .. ▸ h
  exact ⟨e.2.2.2.2.2.2.2.1, e.2.2.2.2.2.2.2.2.2.2.1, e.2.2.2.2.2.2.2.2.2.2.2.2.2.1⟩

theorem SettleRow.trans {a b c : MutationRow} (h : SettleRow a b) (h' : SettleRow b c) : SettleRow a c := by
  rcases h with h | ⟨hs1, hr1, h⟩ <;> rcases h' with h' | ⟨hs2, hr2, h'⟩
  · exact .inl (h'.trans h)
  · obtain ⟨e1, e2, -⟩ := core_eq h
    exact .inr ⟨e1 ▸ hs2, e2 ▸ hr2, by rw [h', h]⟩
  · exact .inr ⟨hs1, hr1, h'.trans h⟩
  · exact .inr ⟨hs1, hr1, by rw [h', h]⟩

/-- The frame of settlement: the row layer, plus completing accepted calls. The input of a call that
is still open is untouched. -/
structure Settles (s t : Store) : Prop where
  row : t.row = { s.row with nextLocalSequence := t.row.nextLocalSequence }
  descriptors : t.descriptors = s.descriptors
  queue : List.Forall₂ SettleRow s.queue t.queue
  inputs : ∀ r ∈ t.queue, r.reconciled = false → t.inputs r.id = s.inputs r.id
  dependencies : t.dependencies = s.dependencies
  prerequisites : t.prerequisites = s.prerequisites
  evidence : ∀ k, (s.evidence k).Released (t.evidence k)
  progress : t.progress = s.progress
  deliveryKeys : t.deliveryKeys = s.deliveryKeys

theorem Local.inputs {s t : Store} (h : Local s t) (id : Nat) : t.inputs id = s.inputs id := by
  obtain ⟨x, hx, hn⟩ := h.operations
  unfold Store.inputs
  rw [hx, List.filter_append]
  have : x.filter (fun o => o.mutationId = id && o.inputPath.isSome) = [] := by
    rw [List.filter_eq_nil_iff]
    intro o ho
    simp [hn o ho]
  rw [this, List.append_nil]

theorem Local.rows {s t : Store} (h : Local s t) :
    List.Forall₂ (fun r r' : MutationRow => r'.core = r.core) s.queue t.queue := forall₂_of_map_eq h.queue

namespace Settles

theorem ofLocal {s t : Store} (h : Local s t) : Settles s t where
  row := h.row
  descriptors := h.descriptors
  queue := h.rows.imp fun _ _ e => .inl e
  inputs r _ _ := h.inputs r.id
  dependencies := h.dependencies
  prerequisites := h.prerequisites
  evidence := h.evidence
  progress := h.progress
  deliveryKeys := h.deliveryKeys

theorem refl (s : Store) : Settles s s := ofLocal (Local.refl s)

theorem reconciled_mono {r r' : MutationRow} (h : SettleRow r r') (hr : r'.reconciled = false) :
    r.reconciled = false := by
  have e : ∀ x : MutationRow, x.core.reconciled = x.reconciled := fun _ => rfl
  rcases h with h | ⟨-, -, h⟩
  · rw [← e r, ← h, e, hr]
  · rw [← e r', h] at hr; cases hr

theorem trans {s t u : Store} (h : Settles s t) (h' : Settles t u) : Settles s u where
  row := by rw [h'.row, h.row]
  descriptors := h'.descriptors.trans h.descriptors
  queue := forall₂_comp (R := SettleRow) (S := SettleRow) (T := SettleRow) (fun _ _ _ hab hbc => SettleRow.trans hab hbc) h.queue h'.queue
  inputs r hr hrec := by
    obtain ⟨q, hq, hqr⟩ := forall₂_mem_right h'.queue hr
    rw [h'.inputs r hr hrec, hqr.id_eq]
    exact h.inputs q hq (reconciled_mono hqr hrec)
  dependencies := h'.dependencies.trans h.dependencies
  prerequisites := h'.prerequisites.trans h.prerequisites
  evidence k := (h.evidence k).trans (h'.evidence k)
  progress := h'.progress.trans h.progress
  deliveryKeys := h'.deliveryKeys.trans h.deliveryKeys

instance : IsPreorder Store Settles where
  refl := refl
  trans _ _ _ := trans

end Settles

end Axton
