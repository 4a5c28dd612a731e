import Axton.Client.Store

/-!
# Optimistic rows: bases, journal, rebuild and cascades

Model of `crates/client/src/mutate.rs` and `authority.rs` with the row primitives of `rows.rs` and
the journal primitives of `queue.rs`. Everything here runs inside `Local`: it can touch records,
their before images and their journal, and nothing of the queue's outcomes, the cursors or the
authority history.

| here | there |
|------|-------|
| `Engine.columns`, `fits` | `row_params` with the NOT NULL and UNIQUE checks of the tables |
| `Store.history` | `history` (mutate.rs:165), in `Step::order` |
| `Engine.rebuild` | `rebuild` (mutate.rs:213) |
| `Engine.descendants` | `descendants_where` (mutate.rs:266), its stack bounded by the row count |
| `Engine.refreshPending` | `refresh_pending` (mutate.rs:326) |
| `Engine.applyInOrder` | `apply_in_order` (mutate.rs:423) |

Column types keep a number's type, so the text a value passes through in the journal is not part of
the row layer.
-/

namespace Axton

/-- One handle per open transaction (`engine.rs`): the schema it runs with. -/
structure Engine where
  platform : Platform
  schema : Schema

/-! ## Rows -/

/-- `merge_identity` (rows.rs:60). -/
def mergeIdentity (identity values : Json) : Row := Fields.extend identity.fields values.fields

/-- `apply_settled` (mutate.rs:41): a settled write is never a replay conflict. -/
def applySettled (row : Option Row) (o : Operation) : Option Row :=
  match o.op with
  | .create => match o.values with
    | some values => some (mergeIdentity o.key.identity values)
    | none => row
  | .update => match row, o.values.bind (·.asObject) with
    | some current, some patch => some (Fields.extend current patch)
    | row, _ => row
  | .delete => none

/-- `apply_to_row` (mutate.rs:73). -/
def applyToRow (row : Option Row) (o : Operation) : Except String (Option Row) :=
  match o.op with
  | .create =>
    if row.isSome then .error "create already exists"
    else match o.values with
      | some values => .ok (some (mergeIdentity o.key.identity values))
      | none => .error "create values missing"
  | .update => match row, o.values.bind (·.asObject) with
    | none, _ => .error "update row missing"
    | some _, none => .error "patch missing"
    | some current, some patch => .ok (some (Fields.extend current patch))
  | .delete => .ok none

/-! ## Local history -/

/-- One entry of a record's local history above its base (mutate.rs:13). -/
inductive Step where
  | pending (q : QueuedOp)
  | settled (w : LocalWrite)
deriving DecidableEq

/-- `Step::order` (mutate.rs:24). -/
def Step.order : Step → ℕ ×ₗ ℕ ×ₗ ℕ ×ₗ ℕ
  | .pending q => toLex (q.ordinal, toLex (0, toLex (q.position, 0)))
  | .settled w => match w.kind with
    | .accepted => toLex (w.ordinal, toLex (0, toLex (w.position.getD 0, w.sequence)))
    | .independent => toLex (w.ordinal, toLex (1, toLex (0, w.sequence)))

def Step.le (a b : Step) : Prop := a.order ≤ b.order

instance : DecidableRel Step.le := fun a b => inferInstanceAs (Decidable (a.order ≤ b.order))

def Step.isSettled : Step → Bool
  | .settled _ => true
  | .pending _ => false

/-- The settled write of a step. -/
def Step.write : Step → Option LocalWrite
  | .settled w => some w
  | .pending _ => none

/-- `history` (mutate.rs:165): everything above one record's base, in committed local order. -/
def Store.history (s : Store) (k : RecordKey) : List Step :=
  ((s.opsFor k).map Step.pending ++ (s.localWritesFor k).map Step.settled).insertionSort Step.le

/-- `settled_view` (mutate.rs:63): the base with only the settled writes applied. -/
def settledView (base : Option Row) (steps : List Step) : Option Row :=
  (steps.filterMap Step.write).foldl (fun row w => applySettled row w.op) base

/-- Replay a history over a base, or name the call whose operation no longer applies. -/
def replay : Option Row → List Step → Except Nat (Option Row)
  | row, [] => .ok row
  | row, .settled w :: rest => replay (applySettled row w.op) rest
  | row, .pending q :: rest => match applyToRow row q.op with
    | .ok row => replay row rest
    | .error _ => .error q.ordinal

namespace Engine

/-! ## Row tables -/

section
variable (E : Engine)

/-- One value per column, null where the row has none (`row_params`, rows.rs:30). -/
def columns (m : ModelDescriptor) (row : Row) : Row :=
  m.fields.foldl (fun acc f => Fields.insert acc f.name ((Fields.get row f.name).getD .null)) []

/-- The row as its table holds it. -/
def stored (key : RecordKey) (row : Row) : Row :=
  match E.schema.model key.model with
  | .ok m => columns m row
  | .error _ => row

def notNull (m : ModelDescriptor) (row : Row) : Bool :=
  m.fields.all fun f => f.nullable || !((Fields.get row f.name).getD .null).isNull

/-- Another row of the model holds the same values in a unique set. A null never conflicts. -/
def conflicts (m : ModelDescriptor) (main : Table RecordKey Row) (key : RecordKey) (row : Row) : Bool :=
  m.unique.any fun u =>
    (u.all fun n => !((Fields.get row n).getD .null).isNull) &&
      main.any fun e => e.1.model = key.model && e.1 ≠ key &&
        u.all fun n => decide (Fields.get e.2 n = Fields.get row n)

/-- The main table accepts the row: every NOT NULL column is set and no UNIQUE index conflicts. -/
def fits (s : Store) (key : RecordKey) (row : Option Row) : Bool :=
  match E.schema.model key.model, row with
  | .ok _, none => true
  | .ok m, some row => notNull m row && !conflicts m s.main key row
  | .error _, _ => false

/-- The before table has no UNIQUE index. -/
def fitsBefore (key : RecordKey) (row : Option Row) : Bool :=
  match E.schema.model key.model, row with
  | .ok _, none => true
  | .ok m, some row => notNull m row
  | .error _, _ => false

/-- `main_set` (mutate.rs:145). -/
def mainSet (key : RecordKey) (row : Option Row) : Within Local Unit := do
  let s ← Within.read
  Within.require (E.fits s key row) "constraint failed"
  Within.write (fun s => { s with main := s.main.put key (row.map (E.stored key)) })
    fun _ => .ofRecords rfl rfl rfl rfl rfl rfl rfl rfl rfl

/-- `before_set` (mutate.rs:137). -/
def beforeSet (key : RecordKey) (row : Option Row) : Within Local Unit := do
  Within.require (E.fitsBefore key row) "constraint failed"
  Within.write (fun s => { s with before := s.before.put key (row.map (E.stored key)) })
    fun _ => .ofRecords rfl rfl rfl rfl rfl rfl rfl rfl rfl

/-- `copy_aside` (rows.rs:268): `INSERT OR IGNORE` of the visible row. -/
def copyAside (key : RecordKey) : Within Local Unit := do
  Within.require (E.schema.model key.model).isOk ("unknown model " ++ key.model)
  Within.write (fun s => match s.main.get key, s.before.get key with
      | some row, none => { s with before := s.before.set key row }
      | _, _ => s)
    fun s => by
      split
      · exact .ofRecords rfl rfl rfl rfl rfl rfl rfl rfl rfl
      · exact Local.refl s

/-- `hold_truth` (mutate.rs:199). -/
def holdTruth (key : RecordKey) : Within Local Unit := do
  let s ← Within.read
  if s.dirty key then pure () else E.copyAside key

/-- `apply_main` (mutate.rs:172). -/
def applyMain (o : Operation) : Within Local Unit := do
  let s ← Within.read
  match o.op with
  | .create => match o.values with
    | none => Within.fail "create values missing"
    | some values =>
      if (s.main.get o.key).isSome then Within.fail "create already exists"
      else E.mainSet o.key (some (mergeIdentity o.key.identity values))
  | .update => do
    let row ← Within.lift (applyToRow (s.main.get o.key) o)
    E.mainSet o.key row
  | .delete => E.mainSet o.key none

/-! ## Cascades -/

/-- The rows of a table that reference `parent` through relation `r` of model `m`
(`identities_where`, rows.rs:247). -/
def referencing (table : Table RecordKey Row) (m : ModelDescriptor) (r : RelationDescriptor)
    (parent : RecordKey) : List RecordKey :=
  (table.filter fun e => e.1.model = m.name && (r.fields.zip r.targetFields).all fun (loc, remote) =>
    decide ((Fields.get e.2 loc).getD .null = parent.identity.index remote)).map (·.1)

/-- The children of a record by cascading relations, over visible rows and before images. -/
def children (s : Store) (parent : RecordKey) : List RecordKey :=
  E.schema.models.flatMap fun m =>
    (m.relations.filter fun r => r.target = parent.model && r.cascade).flatMap fun r =>
      referencing s.main m r parent ++ referencing s.before m r parent

/-- The loop state of `descendants_where`: seen keys, the stack and the result. -/
structure Walk where
  seen : List RecordKey
  todo : List RecordKey
  result : List RecordKey

/-- `if seen.insert(child) && admit(child) { todo.push; result.push }`. -/
def Walk.visit (admits : RecordKey → Bool) (w : Walk) (child : RecordKey) : Walk :=
  if w.seen.contains child then w
  else if admits child then ⟨child :: w.seen, child :: w.todo, w.result ++ [child]⟩
  else { w with seen := child :: w.seen }

/-- The `while let Some(parent) = todo.pop()` loop. -/
def walk (s : Store) (admits : RecordKey → Bool) : Nat → Walk → List RecordKey
  | 0, w => w.result
  | fuel + 1, w => match w.todo with
    | [] => w.result
    | parent :: todo => walk s admits fuel ((E.children s parent).foldl (Walk.visit admits) { w with todo })

/-- `descendants_where` (mutate.rs:266). Every popped key was seen once, so the row count bounds the
loop. -/
def descendantsWhere (s : Store) (parent : RecordKey) (admits : RecordKey → Bool) : List RecordKey :=
  E.walk s admits (s.main.length + s.before.length + 1) ⟨[parent], [parent], []⟩

/-- `descendants` (mutate.rs:263). -/
def descendants (s : Store) (parent : RecordKey) : List RecordKey :=
  E.descendantsWhere s parent fun _ => true

def deleteOf (key : RecordKey) : Operation := ⟨key, .delete, none⟩

end

/-! ## Journal -/

/-- `allocate05("next_local_sequence")` (store05.rs:228). -/
def allocateSequence : Within Local Nat := do
  let s ← Within.read
  Within.require (s.row.nextLocalSequence + 1 ≤ maxSafeInteger) "counter exhausted"
  Within.write (fun s => { s with row := { s.row with nextLocalSequence := s.row.nextLocalSequence + 1 } })
    fun s => { Local.refl s with row := rfl, sequence := Nat.le_succ _ }
  pure s.row.nextLocalSequence

/-- `set_evidence05` with the protection released (settlement05.rs:15). -/
def directEvidence (key : RecordKey) : Within Local Unit :=
  Within.write (fun s => { s with authority := s.authority.set key (s.evidence key).release })
    fun s => { Local.refl s with
      evidence := fun k => by
        by_cases h : key = k
        · subst h; exact .inr (by simp [Store.evidence])
        · exact .inl (by simp [Store.evidence, Table.get_set_ne _ _ h]) }

/-- `clear_local_layer` (authority.rs:9). -/
def clearLocalLayer (key : RecordKey) : Within Local Unit :=
  Within.write (fun s => { s with layers := s.layers.erase key })
    fun _ => .ofRecords rfl rfl rfl rfl rfl rfl rfl rfl rfl

/-- The layer with one more operation (`retain_local_operation`, authority.rs:37): a create or
delete cuts off what came before, adjacent updates merge. -/
def retained (operations : List Operation) (o : Operation) : Except String (List Operation) :=
  if o.op = .update then
    match operations.getLast? with
    | some last =>
      if last.op = .update then
        match o.values.bind (·.asObject), last.values.bind (·.asObject) with
        | some patch, some fields =>
          .ok (operations.dropLast ++ [{ last with values := some (.obj (Fields.extend fields patch)) }])
        | _, _ => .error "local patch missing"
      else .ok (operations ++ [o])
    | none => .ok [o]
  else .ok [o]

/-- `retain_local_operation` (authority.rs:37). -/
def retainLocalOperation (key : RecordKey) (o : Operation) : Within Local Unit := do
  let s ← Within.read
  let operations ← Within.lift (retained ((s.layers.get key).getD []) o)
  Within.write (fun s => { s with layers := s.layers.set key operations })
    fun _ => .ofRecords rfl rfl rfl rfl rfl rfl rfl rfl rfl

/-- `delete_local_write` (queue.rs:202). -/
def deleteLocalWrite (sequence : Nat) : Within Local Unit :=
  Within.write (fun s => { s with localWrites := s.localWrites.filter (·.sequence ≠ sequence) })
    fun _ => .ofRecords rfl rfl rfl rfl rfl rfl rfl rfl rfl

/-- `delete_local_writes` (queue.rs:212). -/
def deleteLocalWrites (key : RecordKey) : Within Local Unit :=
  Within.write (fun s => { s with localWrites := s.localWrites.filter (·.op.key ≠ key) })
    fun _ => .ofRecords rfl rfl rfl rfl rfl rfl rfl rfl rfl

/-- The row `INSERT INTO axton_local_write`; the sequence is its primary key. -/
def putLocalWrite (w : LocalWrite) : Within Local Unit := do
  let s ← Within.read
  Within.require (s.localWrites.all (·.sequence ≠ w.sequence)) "UNIQUE constraint failed"
  Within.write (fun s => { s with localWrites := s.localWrites ++ [w] })
    fun _ => .ofRecords rfl rfl rfl rfl rfl rfl rfl rfl rfl

/-- `insert_local_write` (queue.rs:174). -/
def insertLocalWrite (ordinal : Nat) (position : Option Nat) (kind : LocalWriteKind) (o : Operation) :
    Within Local Unit := do
  let sequence ← allocateSequence
  putLocalWrite ⟨sequence, ordinal, position, kind, o⟩

/-- `set_diverged` (queue.rs:322). -/
def setDiverged (id : Nat) : Within Local Unit :=
  Within.write (fun s => { s with queue := s.queue.map fun r => if r.id = id then { r with diverged := true } else r })
    fun s => { Local.refl s with
      queue := by
        rw [List.map_map]
        refine List.map_congr_left fun r _ => ?_
        simp only [Function.comp]
        split <;> rfl }

/-- The row an effect or companion of call `id` is stored as (`insert_owned05` without an input path). -/
def ownedRow (s : Store) (id step sequence : Nat) (path : Option String) (kind : OpKind) (o : Operation) :
    OperationRow where
  mutationId := id
  step := step
  localSequence := sequence
  inputPath := path
  kind := kind
  key := some o.key
  operation := o.op.wire
  value := o.values
  ownerHistory := (s.evidence o.key).history

/-- `append_op` (queue.rs:138): at the next position of the call, never an input. -/
def appendOp (id : Nat) (kind : OpKind) (o : Operation) : Within Local Unit := do
  let s ← Within.read
  let sequence ← allocateSequence
  Within.write (fun t => { t with operations := t.operations ++ [ownedRow s id (s.nextStep id) sequence none kind o] })
    fun t => { Local.refl t with operations := ⟨_, rfl, by simp [ownedRow]⟩ }

/-! ## Rebuild -/

section
variable (E : Engine)

/-- `truth` (mutate.rs:156): the base under the pending work, or the visible row of a clean record. -/
def truth (s : Store) (key : RecordKey) : Option Row :=
  if s.dirty key then settledView (s.before.get key) (s.history key) else s.main.get key

/-- Fold a settled prefix of the history into the base: each write moves to the local layer. -/
def foldSettled (key : RecordKey) (writes : List LocalWrite) : Within Local Unit :=
  writes.forM fun w => do
    retainLocalOperation key w.op
    deleteLocalWrite w.sequence

/-- What `rebuild` shows over `base` with pending work left: the replay, or the settled view when
the replay fails or its row does not fit. -/
def showHistory (key : RecordKey) (base : Option Row) (steps : List Step) : Within Local (Option Nat) := do
  let s ← Within.read
  let fallback := settledView base steps
  match replay base steps with
  | .ok row =>
    if E.fits s key row then E.mainSet key row else E.mainSet key fallback
    pure none
  | .error ordinal =>
    E.mainSet key fallback
    setDiverged ordinal
    pure (some ordinal)

/-- `rebuild` (mutate.rs:213). -/
def rebuild (key : RecordKey) : Within Local (Option Nat) := do
  let s ← Within.read
  let steps := s.history key
  let settled := (steps.takeWhile Step.isSettled).filterMap Step.write
  let rest := steps.dropWhile Step.isSettled
  let base := settled.foldl (fun row w => applySettled row w.op) (s.before.get key)
  foldSettled key settled
  if rest.isEmpty then do
    E.mainSet key base
    E.beforeSet key none
    pure none
  else do
    if settled.isEmpty then pure () else E.beforeSet key base
    E.showHistory key base rest

/-- The queued calls with their operations by kind (`queued`, queue.rs:302). Reading a call rebuilds
its input, which can fail. -/
structure QueuedCall where
  ordinal : Nat
  push : Option Nat
  name : String
  version : Nat
  args : Json
  operations : List Operation
  companion : List Operation
  effects : List Operation

/-- One call of `queued_where` (queue.rs:228). -/
def queuedCall (s : Store) (r : MutationRow) : Except String QueuedCall := do
  let args ← s.input E.platform r.id
  let ops := s.callOps r.id
  return {
    ordinal := r.id, push := r.batchId, name := r.name, version := r.version, args
    operations := (ops.filter (·.kind = .wire)).map (·.op)
    companion := (ops.filter (·.kind = .companion)).map (·.op)
    effects := (ops.filter (·.kind = .effect)).map (·.op) }

/-- `queued` (queue.rs:302). -/
def queued (s : Store) : Except String (List QueuedCall) :=
  (s.queue.filter (·.pending)).mapM (E.queuedCall s)

/-- `recreated_locally` (mutate.rs:309): after the call's last delete of `parent` comes a create of
the same call or a settled create. -/
def recreatedLocally (s : Store) (parent : RecordKey) (ordinal : Nat) : Bool :=
  let after := (s.history parent).reverse.takeWhile fun step => match step with
    | .pending q => !(q.ordinal = ordinal && q.op.op = .delete)
    | .settled _ => true
  let deleted := (s.history parent).any fun step => match step with
    | .pending q => q.ordinal = ordinal && q.op.op = .delete
    | .settled _ => false
  deleted && after.any fun step => match step with
    | .pending q => q.ordinal = ordinal && q.op.op = .create
    | .settled w => w.op.op = .create

/-- The call deletes the record by an effect or a companion already. -/
def QueuedCall.deletes (call : QueuedCall) (child : RecordKey) : Bool :=
  (call.effects ++ call.companion).any fun e => e.op = .delete && e.key = child

/-- Extend one queued delete to a descendant it does not reach yet (mutate.rs:353-380). -/
def extendDelete (call : QueuedCall) (kind : OpKind) (child : RecordKey) : Within Local Unit :=
  if call.deletes child then pure ()
  else do
    E.holdTruth child
    appendOp call.ordinal kind (deleteOf child)
    let _ ← E.rebuild child
    pure ()

/-- One delete of a queued call (mutate.rs:346). -/
def refreshDelete (call : QueuedCall) (kind : OpKind) (parent : RecordKey) : Within Local Unit := do
  let s ← Within.read
  if (s.main.get parent).isSome && recreatedLocally s parent call.ordinal then pure ()
  else (E.descendants s parent).forM (E.extendDelete call kind)

/-- The deletes of a queued call with the kind their cascades are stored as. -/
def callDeletes (call : QueuedCall) : List (OpKind × RecordKey) :=
  ((call.operations.map (OpKind.effect, ·)) ++ call.companion.map (OpKind.companion, ·)).filterMap
    fun e => if e.2.op = .delete then some (e.1, e.2.key) else none

/-- `refresh_pending` (mutate.rs:326). -/
def refreshPending : Within Local Unit := do
  let calls ← Within.ask E.queued
  calls.forM fun call => (callDeletes call).forM fun d => E.refreshDelete call d.1 d.2

/-- The keys of a `Held` map: each once, by encoded key. -/
def heldKeys (held : List RecordKey) : List RecordKey :=
  held.dedup.insertionSort fun a b => ¬ b.encoded E.platform < a.encoded E.platform

/-- `rebuild_held` (authority.rs:100): the diverged calls it reports. -/
def rebuildHeld (held : List RecordKey) : Within Local (List (RecordKey × Nat)) := do
  let reports ← (E.heldKeys held).foldlM (fun acc key => do
    match ← E.rebuild key with
    | some ordinal => pure (acc ++ [(key, ordinal)])
    | none => pure acc) []
  E.refreshPending
  pure reports

/-! ## Staging beneath local work -/

/-- `stage_one` (authority.rs:112); the result is the key to rebuild, if any. -/
def stageOne (key : RecordKey) (value : Option Row) : Within Local (List RecordKey) := do
  clearLocalLayer key
  let s ← Within.read
  if s.dirty key then do
    E.beforeSet key value
    deleteLocalWrites key
    pure [key]
  else do
    E.mainSet key value
    pure []

/-- The retained local layer over rematerialized content (authority.rs:80-97): an old create owns the
fields it set, not fields the new materialization brought. -/
def adaptLayer (incoming : Option Row) (layer : List Operation) : Option Row :=
  layer.foldl (fun adapted o => match o.op, adapted with
    | .create, some row => some (match o.values.bind (·.asObject) with
      | some fields => Fields.extend row fields
      | none => row)
    | _, adapted => applySettled adapted o) incoming

/-- `stage_preserving_local` (authority.rs:73). -/
def stagePreservingLocal (key : RecordKey) (incoming : Option Row) : Within Local (List RecordKey) := do
  let s ← Within.read
  let adapted := adaptLayer incoming ((s.layers.get key).getD [])
  if s.dirty key then do
    E.beforeSet key adapted
    pure [key]
  else do
    E.mainSet key adapted
    pure []

/-! ## Local writes -/

/-- `apply_in_order` (mutate.rs:423): hold each base, cascade a delete first, then the operation;
every write is handed to `record`. -/
def applyInOrder {R : Store → Store → Prop} [IsPreorder Store R] (hR : ∀ s t, Local s t → R s t)
    (o : Operation) (own cascade : OpKind) (record : OpKind → Operation → Within R Unit) : Within R Unit := do
  (E.holdTruth o.key).widen hR
  let s ← Within.read
  if o.op = .delete then
    (E.descendants s o.key).forM fun child => do
      (E.holdTruth child).widen hR
      (E.applyMain (deleteOf child)).widen hR
      record cascade (deleteOf child)
  else pure ()
  (E.applyMain o).widen hR
  record own o

/-- `direct_one` (mutate.rs:492). -/
def directOne (o : Operation) : Within Local Unit := do
  let s ← Within.read
  E.applyMain o
  directEvidence o.key
  if s.dirty o.key then insertLocalWrite s.lastOrdinal none .independent o
  else do
    let _ ← allocateSequence
    retainLocalOperation o.key o

end

end Engine

end Axton
