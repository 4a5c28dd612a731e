import Axton.Lib.Within
import Axton.Protocol.Mutation
import Axton.Protocol.Delivery
import Mathlib.Data.Prod.Lex

/-!
# The client store

The tables of one store file (`crates/client/src/store05.rs:14`, the per-model tables of `ddl.rs` and
the delivery tables of `sync05/delta_applier.rs`) as one state, with the reads the engine makes of it.

| here | there |
|------|-------|
| `Store.row` | `axton_store` |
| `Store.queue`, `operations`, `dependencies`, `prerequisites` | `axton_mutation_queue` and its tables |
| `Store.localWrites`, `layers` | `axton_local_write`, `axton_local_replica_layer` |
| `Store.authority` | `axton_authority` (the `base` column is written and never read) |
| `Store.main`, `before` | the model tables and their `axton_before_` tables |
| `Store.progress`, `deliveryKeys` | `axton_delivery_progress`, `axton_delivery_key` |

Keys are canonical once they are stored: the source compares their canonical encodings, the model
the normalized values themselves.
-/

namespace Axton

/-- A write of one record: `values` of a create or update, none for a delete. -/
structure Operation where
  key : RecordKey
  op : OperationKind
  values : Option Json
deriving DecidableEq

structure StoreRow where
  id : String
  stream : String
  materialization : String
  desiredMaterialization : String
  schemaDescriptor : String
  enabledDescriptor : String
  nextMutationId : Nat := 1
  nextLocalSequence : Nat := 1
  lastAcknowledgedBatchId : Nat := 0
  startCursor : Option Nat := none
  bootstrapCursor : Option Nat := none
  cursor : Option Nat := none
  generation : Nat := 1
deriving DecidableEq, Repr

/-- A retained schema (`axton_descriptor`). -/
structure Descriptor where
  materialization : String
  descriptor : Schema
deriving DecidableEq

structure MutationRow where
  id : Nat
  name : String
  version : Nat
  descriptor : String
  batchId : Option Nat := none
  batchMaterialization : Option String := none
  batchDigest : Option (Digest BatchBody) := none
  syncCursor : Option Nat := none
  result : Option Json := none
  targets : List SettlementTarget := []
  rejectionCode : Option String := none
  rejectionMessage : Option String := none
  rejectionAcknowledged : Bool := false
  reconciled : Bool := false
  diverged : Bool := false
deriving DecidableEq

/-- The row without its replay mark, which nothing outside the row layer reads. -/
def MutationRow.core (r : MutationRow) : MutationRow := { r with diverged := false }

/-- Still in the queue: neither settled nor refused. -/
def MutationRow.pending (r : MutationRow) : Bool := !r.reconciled && r.rejectionCode.isNone

inductive OpKind where
  | wire | companion | effect | argument
deriving DecidableEq, Repr

structure OperationRow where
  mutationId : Nat
  step : Nat
  localSequence : Nat
  inputPath : Option String
  kind : OpKind
  key : Option RecordKey
  operation : WireOperation
  value : Option Json
  ownerHistory : Table String Nat
deriving DecidableEq

/-- An operation of a queued call on a record (`QueuedOp`). -/
structure QueuedOp where
  ordinal : Nat
  position : Nat
  kind : OpKind
  op : Operation
deriving DecidableEq

/-- `decode_op`: the record operation a row holds; an argument row holds none. -/
def OperationRow.queued (o : OperationRow) : Option QueuedOp :=
  match o.key, o.operation with
  | some key, .create => some ⟨o.mutationId, o.step, o.kind, ⟨key, .create, o.value⟩⟩
  | some key, .update => some ⟨o.mutationId, o.step, o.kind, ⟨key, .update, o.value⟩⟩
  | some key, .delete => some ⟨o.mutationId, o.step, o.kind, ⟨key, .delete, o.value⟩⟩
  | _, _ => none

inductive DependencyKind where
  | lifecycle | sequence
deriving DecidableEq, Repr

structure Dependency where
  ordinal : Nat
  dependsOn : Nat
  kind : DependencyKind
deriving DecidableEq, Repr

structure Prerequisite where
  ordinal : Nat
  key : String
  error : Option String
deriving DecidableEq, Repr

inductive LocalWriteKind where
  | independent | accepted
deriving DecidableEq, Repr

/-- A settled local write kept at its place in a record's local order. -/
structure LocalWrite where
  sequence : Nat
  ordinal : Nat
  position : Option Nat
  kind : LocalWriteKind
  op : Operation
deriving DecidableEq

/-- A row of `axton_delivery_progress`: a plan whose units are partly installed. -/
structure DeliveryProgressRow where
  digest : Digest HeaderBody
  header : DeliveryHeader
  nextUnit : Nat
  covered : Option Nat
deriving DecidableEq

/-- A record as its table holds it: one value per column. -/
abbrev Row := Fields

structure Store where
  row : StoreRow
  descriptors : Table String Descriptor := []
  queue : List MutationRow := []
  operations : List OperationRow := []
  dependencies : List Dependency := []
  prerequisites : List Prerequisite := []
  localWrites : List LocalWrite := []
  layers : Table RecordKey (List Operation) := []
  authority : Table RecordKey RecordEvidence := []
  main : Table RecordKey Row := []
  before : Table RecordKey Row := []
  progress : Table String DeliveryProgressRow := []
  deliveryKeys : List (String × RecordKey) := []
deriving DecidableEq

namespace Store

/-- `evidence05` (settlement05.rs:5). -/
def evidence (s : Store) (k : RecordKey) : RecordEvidence := (s.authority.get k).getD {}

/-- `context05` (store05.rs:215). -/
def context (s : Store) : RequestContext where
  storeId := s.row.id
  stream := s.row.stream
  materialization := s.row.materialization

def mutation (s : Store) (id : Nat) : Option MutationRow := s.queue.find? (·.id = id)

/-- Whether call `id` is still queued and unrefused. -/
def isPending (s : Store) (id : Nat) : Bool := (s.mutation id).any (·.pending)

/-- `(mutation_id, step)` order. -/
def opLe (a b : QueuedOp) : Prop := toLex (a.ordinal, a.position) ≤ toLex (b.ordinal, b.position)

instance : DecidableRel opLe := fun _ _ => inferInstanceAs (Decidable (toLex _ ≤ toLex _))

/-- The pending record operations in queue order (`ops_by_ordinal`, queue.rs:217). -/
def pendingOps (s : Store) : List QueuedOp :=
  ((s.operations.filter fun o => s.isPending o.mutationId).filterMap (·.queued)).insertionSort opLe

/-- `ops_for` (queue.rs:311). -/
def opsFor (s : Store) (k : RecordKey) : List QueuedOp := s.pendingOps.filter (·.op.key = k)

/-- `call_ops` (queue.rs:157). -/
def callOps (s : Store) (id : Nat) : List QueuedOp := s.pendingOps.filter (·.ordinal = id)

/-- `dirty` (queue.rs:330): a pending operation mentions the key. -/
def dirty (s : Store) (k : RecordKey) : Bool := !(s.opsFor k).isEmpty

/-- `local_writes_for` (queue.rs:194), in allocation order. -/
def localWritesFor (s : Store) (k : RecordKey) : List LocalWrite :=
  (s.localWrites.filter (·.op.key = k)).insertionSort (fun a b => a.sequence ≤ b.sequence)

/-- `last_ordinal` (queue.rs:167). -/
def lastOrdinal (s : Store) : Nat := s.row.nextMutationId - 1

/-- `SELECT COALESCE(MAX(step), -1) + 1` (queue.rs:140). -/
def nextStep (s : Store) (id : Nat) : Nat :=
  ((s.operations.filter (·.mutationId = id)).map (·.step + 1)).foldr max 0

/-- `wire_ops05` (mutation_queue.rs:45): the saved input of a call, parsed back from its text. -/
def wireOps (P : Platform) (s : Store) (id : Nat) : List MutationOperation :=
  ((s.operations.filter fun o => o.mutationId = id && o.inputPath.isSome).insertionSort
      fun a b => a.step ≤ b.step).map fun o =>
    { step := o.step
      inputPath := o.inputPath.getD ""
      operation := o.operation
      model := o.key.map (·.model)
      identity := P.reread ((o.key.map (·.identity)).getD .null)
      value := P.reread (o.value.getD .null) }

/-- `input05` (mutation_queue.rs:48). -/
def input (P : Platform) (s : Store) (id : Nat) : Except String Json := reconstructInput (s.wireOps P id)

/-- `retained_schema05` (mutation_queue.rs:34). -/
def retainedSchema (s : Store) (context : String) : Except String Schema :=
  match s.descriptors.get context with
  | some d => .ok d.descriptor
  | none => .error "descriptor missing"

end Store

/-! ## What the row layer may change -/

/-- The frame of the row layer (`mutate.rs`, `authority.rs`): records, their journal and the replay
marks. It appends no input operation, allocates only local sequence numbers, and of the evidence it
can only release the protection of a record. -/
structure Local (s t : Store) : Prop where
  row : t.row = { s.row with nextLocalSequence := t.row.nextLocalSequence }
  sequence : s.row.nextLocalSequence ≤ t.row.nextLocalSequence
  descriptors : t.descriptors = s.descriptors
  queue : t.queue.map MutationRow.core = s.queue.map MutationRow.core
  operations : ∃ extra, t.operations = s.operations ++ extra ∧ ∀ o ∈ extra, o.inputPath = none
  dependencies : t.dependencies = s.dependencies
  prerequisites : t.prerequisites = s.prerequisites
  evidence : ∀ k, (s.evidence k).Released (t.evidence k)
  progress : t.progress = s.progress
  deliveryKeys : t.deliveryKeys = s.deliveryKeys

namespace Local

theorem refl (s : Store) : Local s s where
  row := rfl
  sequence := le_refl _
  descriptors := rfl
  queue := rfl
  operations := ⟨[], by simp, by simp⟩
  dependencies := rfl
  prerequisites := rfl
  evidence _ := .refl _
  progress := rfl
  deliveryKeys := rfl

theorem trans {s t u : Store} (h : Local s t) (h' : Local t u) : Local s u where
  row := by rw [h'.row, h.row]
  sequence := le_trans h.sequence h'.sequence
  descriptors := h'.descriptors.trans h.descriptors
  queue := h'.queue.trans h.queue
  operations := by
    obtain ⟨x, hx, hxn⟩ := h.operations
    obtain ⟨y, hy, hyn⟩ := h'.operations
    refine ⟨x ++ y, by rw [hy, hx, List.append_assoc], fun o ho => ?_⟩
    rcases List.mem_append.1 ho with ho | ho
    · exact hxn o ho
    · exact hyn o ho
  dependencies := h'.dependencies.trans h.dependencies
  prerequisites := h'.prerequisites.trans h.prerequisites
  evidence k := (h.evidence k).trans (h'.evidence k)
  progress := h'.progress.trans h.progress
  deliveryKeys := h'.deliveryKeys.trans h.deliveryKeys

instance : IsPreorder Store Local where
  refl := refl
  trans _ _ _ := trans

/-- A write of the record tables and the journal alone. -/
theorem ofRecords {s t : Store} (hr : t.row = s.row) (hd : t.descriptors = s.descriptors)
    (hq : t.queue = s.queue) (ho : t.operations = s.operations)
    (hdep : t.dependencies = s.dependencies) (hp : t.prerequisites = s.prerequisites)
    (ha : t.authority = s.authority) (hpr : t.progress = s.progress)
    (hk : t.deliveryKeys = s.deliveryKeys) : Local s t where
  row := by rw [hr]
  sequence := by rw [hr]
  descriptors := hd
  queue := by rw [hq]
  operations := ⟨[], by simp [ho], by simp⟩
  dependencies := hdep
  prerequisites := hp
  evidence k := .inl (by simp [Store.evidence, ha])
  progress := hpr
  deliveryKeys := hk

/-- The context of a store is not the row layer's. -/
theorem context {s t : Store} (h : Local s t) : t.context = s.context := by
  unfold Store.context
  rw [h.row]

end Local

end Axton
