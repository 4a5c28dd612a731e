import Axton.Protocol.Sync

/-!
# Batches, receipts and slot reconstruction

Model of `crates/protocols/src/sync/mutation.rs`. A frozen batch is hashed over its ordered intent
(`batch_digest`), a receipt must answer exactly its members (`validate_acknowledgement`), and the
input of a call is rebuilt from its saved operations by slot path (`reconstruct_input`).
-/

namespace Axton

/-! ## Slot paths -/

/-- `str::split_once('[')`. -/
def splitOnce : List Char → Option (List Char × List Char)
  | [] => none
  | c :: cs => if c = '[' then some ([], cs) else (splitOnce cs).map fun p => (c :: p.1, p.2)

/-- `str::strip_suffix(']')`. -/
def stripBracket (cs : List Char) : Option (List Char) :=
  if cs.getLast? = some ']' then some cs.dropLast else none

def digitsToNat (cs : List Char) : Nat := cs.foldl (fun n c => 10 * n + (c.toNat - 48)) 0

/-- A canonical `usize`: `digits.parse()` succeeds and prints back to the same digits. -/
def listIndex (digits : List Char) : Option Nat :=
  if digits ≠ [] ∧ digits.all Char.isDigit ∧ digitsToNat digits < 2 ^ 64 ∧
      (toString (digitsToNat digits)).toList = digits
  then some (digitsToNat digits) else none

/-- An ASCII identifier (mutation.rs:112). -/
def slotName : List Char → Bool
  | [] => false
  | c :: cs => (c = '_' || c.isAlpha) && cs.all fun d => d = '_' || d.isAlpha || d.isDigit

/-- The slot and list index an input path names (mutation.rs:96-117). -/
def parsePath (path : String) : Except String (String × Option Nat) :=
  match splitOnce path.toList with
  | some (slot, tail) =>
    match stripBracket tail with
    | none => .error "invalid input path"
    | some digits => match listIndex digits with
      | none => .error "invalid list index"
      | some i => if slotName slot then .ok (String.ofList slot, some i) else .error "invalid slot name"
  | none => if slotName path.toList then .ok (path, none) else .error "invalid slot name"

/-! ## Reconstruction -/

/-- The value one saved operation carries (mutation.rs:119). -/
def operationValue (o : MutationOperation) : Except String Json :=
  if o.operation = .argument then .ok o.value
  else
    let identity := o.identity.fields
    let payload := o.value.fields
    if payload.any fun e => Fields.contains identity e.1 then .error "payload repeats identity"
    else .ok (.obj (Fields.extend identity payload))

/-- The loop state of `reconstruct_input`. -/
structure Slots where
  slots : Fields := []
  lists : Table String (Table Nat Json) := []
  previous : Option Nat := none

/-- One iteration of `reconstruct_input` (mutation.rs:90-141). -/
def Slots.add (s : Slots) (o : MutationOperation) : Except String Slots := do
  o.validate
  check (s.previous.all (· < o.step)) "steps must increase"
  let (slot, index) ← parsePath o.inputPath
  let value ← operationValue o
  match index with
  | some i =>
    let list := (s.lists.get slot).getD []
    check (!Fields.contains s.slots slot && (Table.get list i).isNone) "overlapping input path"
    return { s with lists := s.lists.set slot (Table.set list i value), previous := some o.step }
  | none =>
    check ((s.lists.get slot).isNone && !Fields.contains s.slots slot) "overlapping input path"
    return { s with slots := Fields.insert s.slots slot value, previous := some o.step }

/-- The values of a list slot, when its indices are contiguous from zero. -/
def contiguous (list : Table Nat Json) : Option (List Json) :=
  (List.range list.length).mapM (Table.get list ·)

/-- `reconstruct_input` (mutation.rs:86). -/
def reconstructInput (operations : List MutationOperation) : Except String Json := do
  let s ← operations.foldlM Slots.add {}
  let slots ← s.lists.foldlM (fun acc e => match contiguous e.2 with
    | some xs => .ok (Fields.insert acc e.1 (.arr xs))
    | none => .error "noncontiguous list input") s.slots
  return .obj slots

/-! ## Batches -/

/-- The per-mutation rules of `batch_body` (mutation.rs:10-21). -/
def validateMutation (m : Mutation) : Except String Unit := do
  check (positive m.id) "positive counter required"
  check (nonblank m.name) "blank identifier"
  check (positive m.version) "positive counter required"
  let _ ← reconstructInput m.operations
  return ()

/-- `batch_body` (mutation.rs:4): mutation ids increase and every member can be rebuilt. -/
def BatchBody.validate (b : BatchBody) : Except String Unit := do
  b.context.validate
  check (positive b.batchId) "positive counter required"
  check (!b.mutations.isEmpty) "empty Mutation Batch"
  check (decide ((b.mutations.map (·.id)).Pairwise (· < ·))) "Mutation IDs must increase"
  b.mutations.forM validateMutation

/-- `batch_digest` (mutation.rs:27). -/
def batchDigest (b : BatchBody) : Except String (Digest BatchBody) := do
  b.validate
  return ⟨b⟩

/-- `validate_batch` (mutation.rs:30). -/
def MutationRequest.validate (r : MutationRequest) : Except String Unit := do
  let d ← batchDigest r.toBatchBody
  check (d = r.digest) "Batch digest mismatch"

/-- Every Model operand of an accepted member has a settlement target (mutation.rs:56-79). -/
def mandatoryTargets (P : Platform) (m : Mutation) : MutationOutcome → Bool
  | .accepted _ _ targets =>
    m.operations.all fun o => match o.model with
      | some model => targets.any fun t => t.key.syncText P = RecordKey.syncText P ⟨model, o.identity⟩
      | none => true
  | .rejected _ _ => true

/-- The result of one member. -/
def BatchAcknowledgement.result (a : BatchAcknowledgement) (id : Nat) : Option MutationResult :=
  a.results.find? (·.mutationId = id)

/-- `validate_acknowledgement` (mutation.rs:37). -/
def validateAcknowledgement (P : Platform) (r : MutationRequest) (a : BatchAcknowledgement) : Except String Unit := do
  r.validate
  a.validate P
  check (a.context = r.context && a.batchId = r.batchId && a.digest = r.digest)
    "Batch acknowledgement mismatch"
  check ((r.mutations.all fun m => (a.result m.id).isSome) &&
    a.results.all fun x => r.mutations.any (·.id = x.mutationId))
    "Batch acknowledgement membership mismatch"
  check (r.mutations.all fun m => (a.result m.id).all fun x => mandatoryTargets P m x.outcome)
    "missing mandatory settlement target"

end Axton
