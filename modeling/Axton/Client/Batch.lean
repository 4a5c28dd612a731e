import Axton.Client.Calls

/-!
# Frozen batches

Model of the sending half of `crates/client/src/mutation_queue.rs`: `reconstruct_batch05` rebuilds a
request from the retained rows and descriptor history, `freeze05` returns the outstanding batch or
assigns the next one.
-/

namespace Axton

namespace Engine

section
variable (E : Engine)

/-- The saved Model operations as the client derives them (mutation_queue.rs:229). -/
def savedOperation (o : MutationOperation) : Option Operation :=
  o.model.map fun model =>
    { key := ⟨model, o.identity⟩
      op := match o.operation with
        | .create => .create
        | .update => .update
        | _ => .delete
      values := if o.value.isNull then none else some o.value }

/-- `o.input_path.split('[').next()`. -/
def pathSlot (path : String) : String := String.ofList (path.toList.takeWhile (· ≠ '['))

/-- A saved operation sits in the slot its path names (mutation_queue.rs:249-284). -/
def validateSlot (a : ActionDescriptor) (o : MutationOperation) : Except String Unit :=
  match a.inputs.find? (·.name = pathSlot o.inputPath) with
  | none => .error "unknown slot"
  | some (.model _ model operation cardinality _ _) => do
    check (o.model.isNone || (o.model = some model && o.operation = operation.wire)) "wrong Model slot"
    check (o.operation ≠ .argument || (cardinality = .optional && o.value.isNull) ||
      (cardinality = .list && o.value = .arr [])) "invalid Model argument sentinel"
  | some (.value ..) => check (o.operation = .argument) "Value slot is not argument"

/-- One member of `reconstruct_batch05` (mutation_queue.rs:212-294). -/
def reconstructMember (s : Store) (r : MutationRow) : Except String Mutation := do
  let operations := s.wireOps E.platform r.id
  let schema ← s.retainedSchema r.descriptor
  let action ← schema.action r.name r.version
  let input ← reconstructInput operations
  let normalized ← normalizeActionArgs E.platform schema action input
  check (input.fields.all fun e => normalized.field e.1 = some e.2) "noncanonical saved input"
  validateActionBindings E.platform schema action normalized
  let expected ← deriveOperations schema action normalized
  check (expected = operations.filterMap savedOperation) "input operations differ from retained descriptor"
  operations.forM (validateSlot action)
  return ⟨r.id, r.name, r.version, ⟨action⟩, operations⟩

/-- The rows of a batch, by id. -/
def batchRows (s : Store) (batch : Nat) : List MutationRow := s.queue.filter (·.batchId = some batch)

/-- `reconstruct_batch05` (mutation_queue.rs:202). -/
def reconstructBatch (s : Store) (batch : Nat) : Except String MutationRequest := do
  let rows := batchRows s batch
  let some first := rows.head? | .error "unknown Batch"
  let some materialization := first.batchMaterialization | .error "Batch context missing"
  let mutations ← rows.mapM (E.reconstructMember s)
  let body : BatchBody := ⟨{ s.context with materialization }, batch, mutations⟩
  let digest ← batchDigest body
  let request : MutationRequest := { body with digest }
  request.validate
  check (rows.all fun r => r.batchDigest.all (· = digest)) "frozen Batch digest changed"
  return request

/-! ## Freezing -/

/-- `MIN(batch_id)` above the last acknowledged one. -/
def outstanding (s : Store) : Option Nat :=
  ((s.queue.filterMap (·.batchId)).filter (s.row.lastAcknowledgedBatchId < ·)).min?

/-- A dependency row still holds its call back (mutation_queue.rs:329). -/
def blocks (s : Store) (d : Dependency) : Bool :=
  (s.mutation d.dependsOn).any fun p =>
    !p.reconciled || (d.kind = .lifecycle && p.rejectionCode.isSome)

/-- The calls the next batch takes (mutation_queue.rs:329). -/
def ready (s : Store) (r : MutationRow) : Bool :=
  r.batchId.isNone && r.pending && s.prerequisites.all (·.ordinal ≠ r.id) &&
    s.dependencies.all fun d => d.ordinal ≠ r.id || !blocks s d

/-- `UPDATE axton_mutation_queue SET batch_id, batch_materialization` of the ready rows. -/
def assign (s : Store) (batch : Nat) : Store :=
  { s with queue := s.queue.map fun r =>
      if ready s r then { r with batchId := some batch, batchMaterialization := some s.row.materialization } else r }

/-- `UPDATE axton_mutation_queue SET batch_digest WHERE batch_id`. -/
def sealBatch (s : Store) (batch : Nat) (digest : Digest BatchBody) : Store :=
  { s with queue := s.queue.map fun r =>
      if r.batchId = some batch then { r with batchDigest := some digest } else r }

/-- `freeze05` (mutation_queue.rs:306). -/
def freeze (s : Store) : Except String (Option MutationRequest × Store) :=
  match outstanding s with
  | some batch => do
    let request ← E.reconstructBatch s batch
    return (some request, s)
  | none =>
    -- beginning the next batch prunes the server's outcomes of the previous one
    if s.queue.any fun r => r.batchId.isSome && !r.reconciled then return (none, s)
    else if !s.queue.any (ready s) then return (none, s)
    else do
      let batch := s.row.lastAcknowledgedBatchId + 1
      check (batch ≤ maxSafeInteger) "Batch counter exhausted"
      let t := assign s batch
      let request ← E.reconstructBatch t batch
      return (some request, sealBatch t batch request.digest)

end

end Engine

end Axton
