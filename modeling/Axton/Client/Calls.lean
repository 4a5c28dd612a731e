import Axton.Client.Mutate

/-!
# Submitting calls and local writes

Model of `actions.rs` (`derive_operations`), `defaults.rs` (create defaults), `policies.rs`
(dependencies and prerequisites of a call), the enqueue half of `mutation_queue.rs` and the direct
and companion writes of `mutate.rs`.

A generated default (`uuid()`, `now()`) is an input of the step that evaluates it: `fresh` names the
value a field receives.
-/

namespace Axton

/-! ## Create defaults -/

/-- `materialize` (defaults.rs:17). -/
def materialize (fresh : String → Json) (field : String) : CreateDefault → Json
  | .literal value => value
  | .uuid => fresh field
  | .now => fresh field

/-- The defaulted fields of `policy` that `admits` and that are not `present` (`fill`, defaults.rs:29). -/
def defaultFields (fresh : String → Json) (policy : ModelDescriptor) (admits present : String → Bool) :
    List (String × Json) :=
  policy.fields.filterMap fun f => match f.createDefault with
    | some d => if admits f.name && !present f.name then some (f.name, materialize fresh f.name d) else none
    | none => none

/-- `fill_operation` (defaults.rs:50). -/
def fillOperation (S : Schema) (fresh : String → Json) (o : Operation) : Operation :=
  match o.op, S.model o.key.model, o.key.identity.asObject, o.values.bind (·.asObject) with
  | .create, .ok policy, some identity, some values =>
    let additions := defaultFields fresh policy (fun _ => true)
      fun name => Fields.contains identity name || Fields.contains values name
    let inside := additions.filter fun e => policy.identity.contains e.1
    let outside := additions.filter fun e => !policy.identity.contains e.1
    { o with key := ⟨o.key.model, .obj (Fields.extend identity inside)⟩
             values := some (.obj (Fields.extend values outside)) }
  | _, _, _, _ => o

/-- `fill_record` (defaults.rs:126): only fields the retained contract declares with the same type. -/
def fillRecord (fresh : String → Json) (policy contract : ModelDescriptor) : Json → Json
  | .obj record => .obj (Fields.extend record (defaultFields fresh policy
      (fun name => match policy.field name, contract.field name with
        | some c, some f => decide (c.valueType = f.valueType)
        | _, _ => false)
      (Fields.contains record)))
  | v => v

/-- `fill_action_args` (defaults.rs:82). The fresh values are by slot and list index. -/
def fillActionArgs (S : Schema) (fresh : String → Nat → String → Json) (a : ActionDescriptor) (args : Fields) :
    Fields :=
  a.inputs.foldl (fun args input => match input with
    | .model name model .create cardinality _ _ =>
      match S.model model, Fields.get args name with
      | .ok policy, some v =>
        let contract := (a.input.bind fun i => i.models.find? (·.name = model)).getD policy
        Fields.insert args name (match cardinality, v with
          | .list, .arr xs => .arr (xs.zipIdx.map fun e => fillRecord (fresh name e.2) policy contract e.1)
          | _, v => fillRecord (fresh name 0) policy contract v)
      | _, _ => args
    | _ => args) args

/-! ## Operations of a call -/

/-- The Model descriptor an action's input reads (actions.rs:49). -/
def inputModel (S : Schema) (a : ActionDescriptor) (model : String) : Except String ModelDescriptor :=
  match (a.input.bind fun i => i.models.find? (·.name = model)).orElse
      (fun _ => S.models.find? (·.name = model)) with
  | some m => .ok m
  | none => .error "Action input Model missing"

/-- Move the identity fields out of a flat operand (actions.rs:57, 80). -/
def splitIdentity (m : ModelDescriptor) (fields : Fields) : Except String (Fields × Fields) :=
  m.identity.foldlM (fun acc name => match Fields.get acc.2 name with
    | some v => .ok (Fields.insert acc.1 name v, Fields.remove acc.2 name)
    | none => .error "Action identity missing") ([], fields)

/-- One operand of `derive_operations` (actions.rs:37). -/
def deriveOperation (S : Schema) (a : ActionDescriptor) (model : String) (operation : OperationKind)
    (v : Json) : Except String Operation := do
  let some fields := v.asObject | .error "invalid flat Model input"
  let m ← inputModel S a model
  let (identity, rest) ← splitIdentity m fields
  return ⟨⟨model, .obj identity⟩, operation, if operation = .delete then none else some (.obj rest)⟩

/-- `derive_operations` (actions.rs:11). -/
def deriveOperations (S : Schema) (a : ActionDescriptor) (args : Json) : Except String (List Operation) := do
  let perSlot ← a.inputs.mapM fun input => match input with
    | .value .. => .ok []
    | .model name model operation cardinality _ _ => do
      let vs ← operands cardinality (args.index name)
      vs.mapM (deriveOperation S a model operation)
  return perSlot.flatten

namespace Engine

section
variable (E : Engine)

/-- `normalize` (mutate.rs:101), and the companion loop of `enqueue05` (mutation_queue.rs:121). -/
def normalize (o : Operation) : Except String Operation := do
  let key ← E.schema.recordKey E.platform o.key.model o.key.identity
  match o.op with
  | .create => match o.values with
    | some v => return ⟨key, .create, some (← E.schema.normalizeState E.platform o.key.model v)⟩
    | none => .error "create values missing"
  | .update => match o.values with
    | some v => return ⟨key, .update, some (← E.schema.validatePatch E.platform o.key.model v)⟩
    | none => .error "update values missing"
  | .delete =>
    if o.values.isSome then .error "delete cannot contain values" else return ⟨key, .delete, none⟩

/-! ## Dependencies and prerequisites -/

/-- `reference` (policies.rs:247): the target of relation `name`, its fields from `carried`, else from
the visible row, else from the held base. -/
def reference (s : Store) (key : RecordKey) (name : String) (carried : Fields) :
    Except String (Option RecordKey) := do
  let m ← E.schema.model key.model
  let some relation := m.relations.find? (·.name = name) | .error "unknown relation in dependency"
  let saved : Row :=
    if relation.fields.all (Fields.contains carried) then []
    else ((s.main.get key).orElse fun _ => truth s key).getD []
  let row := Fields.extend saved carried
  let values := relation.fields.map fun f => (Fields.get row f).getD .null
  if values.any (·.isNull) then return none
  else
    let identity := (relation.targetFields.zip values).foldl (fun acc e => Fields.insert acc e.1 e.2) []
    return some (← E.schema.recordKey E.platform relation.target (.obj identity))

/-- `follow` (policies.rs:213): the first step reads what the act itself carries. -/
def follow (s : Store) (operations : List Operation) : Nat → RecordKey → List String →
    Except String (Option RecordKey)
  | _, key, [] => .ok (some key)
  | step, key, name :: rest => do
    let carried := if step = 0 then
        (operations.filter (·.key = key)).foldl (fun acc o => match o.values.bind (·.asObject) with
          | some values => Fields.extend acc values
          | none => acc) key.identity.fields
      else []
    match ← E.reference s key name carried with
    | none => return none
    | some next => follow s operations (step + 1) next rest

/-- `slots` (policies.rs:121): the records each Model slot holds. -/
def slotKeys (name : String) (version : Nat) (args : Json) : Except String (List (String × List RecordKey)) := do
  let a ← E.schema.action name version
  let perInput ← a.inputs.mapM fun input => match input with
    | .value .. => .ok []
    | .model name model _ cardinality _ _ => do
      let vs ← operands cardinality (args.index name)
      let keys ← vs.mapM fun v => do
        let m ← E.schema.model model
        E.schema.recordKey E.platform model (.obj (Fields.pick v.fields m.identity))
      return [(name, keys)]
  return perInput.flatten

/-- `path.split('.')`. -/
def pathParts (path : String) : List String := (path.toList.splitOn '.').map String.ofList

/-- `resolve` (policies.rs:191): the records at a path `slot.relations…`. -/
def resolve (s : Store) (operations : List Operation) (slots : List (String × List RecordKey)) (path : String) :
    Except String (List RecordKey) := do
  let parts := pathParts path
  let keys := ((slots.find? (·.1 = parts.headD "")).map (·.2)).getD []
  let reached ← keys.mapM fun k => E.follow s operations 0 k parts.tail
  return reached.filterMap id

/-- Every argument pair of a sequence reference meets (policies.rs:87-98). -/
def argumentsMeet (s : Store) (operations : List Operation) (current : List (String × List RecordKey))
    (prior : QueuedCall) (targets : List (String × List RecordKey)) : List (String × String) → Except String Bool
  | [] => .ok true
  | (target, path) :: rest => do
    let sources ← E.resolve s operations current path
    let reached ← E.resolve s prior.operations targets target
    if sources.any (reached.contains ·) then argumentsMeet s operations current prior targets rest
    else return false

/-- What one operation of a new call shares with an earlier queued one (policies.rs:34-44). -/
def lifecycleEdge (references : List RecordKey) (o : Operation) (previous : Operation) : Bool :=
  (previous.op = .create && references.contains previous.key) ||
    (previous.op = .delete && o.op = .create && previous.key = o.key)

/-- The operation under the key its schema spells (policies.rs:26, 36). -/
def keyed (o : Operation) : Except String Operation := do
  return { o with key := ← E.schema.recordKey E.platform o.key.model o.key.identity }

/-- The record of an operation and the targets of its relations (policies.rs:27). -/
def references (s : Store) (o : Operation) : Except String (List RecordKey) := do
  let m ← E.schema.model o.key.model
  let targets ← m.relations.mapM fun r => E.reference s o.key r.name []
  return o.key :: targets.filterMap id

/-- The earlier calls that one operation depends on (policies.rs:25-44). -/
def lifecycleEdges (s : Store) (queue : List QueuedCall) (o : Operation) : Except String (List Nat) := do
  let o ← E.keyed o
  let refs ← E.references s o
  let hits ← queue.mapM fun prior => do
    let previous ← prior.operations.mapM E.keyed
    return if previous.any (lifecycleEdge refs o) then some prior.ordinal else none
  return hits.filterMap id

/-- The prerequisite invocations an operation requires (policies.rs:45-60). -/
def requirementKeys (requirements : List RequirementDescriptor) (o : Operation) : List String :=
  (requirements.filter (·.model = o.key.model)).filterMap fun r =>
    match o.values.bind (·.field r.field) with
    | some v => if v.isNull then none else some (E.platform.canonicalJson (.obj [
        ("arguments", .obj (r.arguments.foldl (fun acc k => Fields.insert acc k v) [])),
        ("name", .str r.name)]))
    | none => none

/-- What `derive` finds for a call. -/
structure Derived where
  lifecycle : List Nat
  sequence : List Nat
  prerequisites : List String

/-- The earlier calls a sequence policy names (policies.rs:66-105). -/
def sequenceEdges (s : Store) (queue : List QueuedCall) (a : ActionDescriptor) (args : Json)
    (operations : List Operation) : Except String (List Nat) := do
  let current ← E.slotKeys a.name a.version args
  let edges ← a.sequence.mapM fun ref => do
    let met ← (queue.filter (·.name = ref.name)).mapM fun prior => do
      match E.schema.action prior.name prior.version with
      | .error _ => return none
      | .ok _ =>
        let targets ← E.slotKeys prior.name prior.version prior.args
        return if ← E.argumentsMeet s operations current prior targets ref.arguments then some prior.ordinal else none
    return met.filterMap id
  return edges.flatten

/-- `derive` (policies.rs:9). -/
def derive (s : Store) (a : ActionDescriptor) (args : Json) (operations : List Operation) :
    Except String Derived := do
  let queue ← E.queued s
  let requirements := a.requirements.getD E.schema.requirements
  let edges ← operations.mapM (E.lifecycleEdges s queue)
  let lifecycle := (queue.map (·.ordinal)).filter (edges.flatten.contains ·)
  let sequence ← E.sequenceEdges s queue a args operations
  return {
    lifecycle
    -- one predecessor has one edge, with the stronger meaning
    sequence := ((queue.map (·.ordinal)).filter (sequence.contains ·)).filter (!lifecycle.contains ·)
    prerequisites := (operations.flatMap (E.requirementKeys requirements)).dedup }

end

/-! ## Enqueue -/

end Engine

/-- The frame of recording the operations of queued call `n`: the row layer, plus input rows of the
call. -/
structure Recording (n : Nat) (s t : Store) : Prop where
  row : t.row = { s.row with nextLocalSequence := t.row.nextLocalSequence }
  sequence : s.row.nextLocalSequence ≤ t.row.nextLocalSequence
  descriptors : t.descriptors = s.descriptors
  queue : t.queue.map MutationRow.core = s.queue.map MutationRow.core
  operations : ∃ extra, t.operations = s.operations ++ extra ∧
    ∀ o ∈ extra, o.inputPath = none ∨ o.mutationId = n
  dependencies : t.dependencies = s.dependencies
  prerequisites : t.prerequisites = s.prerequisites
  evidence : ∀ k, (s.evidence k).Released (t.evidence k)
  progress : t.progress = s.progress
  deliveryKeys : t.deliveryKeys = s.deliveryKeys

namespace Recording

variable {n : Nat}

theorem ofLocal {s t : Store} (h : Local s t) : Recording n s t where
  row := h.row
  sequence := h.sequence
  descriptors := h.descriptors
  queue := h.queue
  operations := by
    obtain ⟨x, hx, hn⟩ := h.operations
    exact ⟨x, hx, fun o ho => .inl (hn o ho)⟩
  dependencies := h.dependencies
  prerequisites := h.prerequisites
  evidence := h.evidence
  progress := h.progress
  deliveryKeys := h.deliveryKeys

theorem refl (s : Store) : Recording n s s := ofLocal (Local.refl s)

theorem trans {s t u : Store} (h : Recording n s t) (h' : Recording n t u) : Recording n s u where
  row := by rw [h'.row, h.row]
  sequence := le_trans h.sequence h'.sequence
  descriptors := h'.descriptors.trans h.descriptors
  queue := h'.queue.trans h.queue
  operations := by
    obtain ⟨x, hx, hxn⟩ := h.operations
    obtain ⟨y, hy, hyn⟩ := h'.operations
    refine ⟨x ++ y, by rw [hy, hx, List.append_assoc], fun o ho => ?_⟩
    rcases List.mem_append.1 ho with ho | ho
    · exact hxn o ho
    · exact hyn o ho
  dependencies := h'.dependencies.trans h.dependencies
  prerequisites := h'.prerequisites.trans h.prerequisites
  evidence k := (h.evidence k).trans (h'.evidence k)
  progress := h'.progress.trans h.progress
  deliveryKeys := h'.deliveryKeys.trans h.deliveryKeys

instance : IsPreorder Store (Recording n) where
  refl := refl
  trans _ _ _ := trans

end Recording

namespace Engine

section
variable (E : Engine)

/-- `insert_owned05` (mutation_queue.rs:51) of the call being enqueued. Its `step` counts the rows
the call already holds. -/
def insertOwned (id : Nat) (path : Option String) (kind : OpKind) (o : Operation) : Within (Recording id) Unit := do
  let s ← Within.read
  let sequence ← allocateSequence.widen fun _ _ => Recording.ofLocal
  Within.write (fun t => { t with operations := t.operations ++ [ownedRow s id (s.nextStep id) sequence path kind o] })
    fun t => { Recording.refl (n := id) t with operations := ⟨_, rfl, by simp [ownedRow]⟩ }

/-- An argument row (mutation_queue.rs:158). -/
def insertArgument (id : Nat) (name : String) (value : Json) : Within (Recording id) Unit := do
  let s ← Within.read
  let sequence ← allocateSequence.widen fun _ _ => Recording.ofLocal
  Within.write (fun t => { t with operations := t.operations ++ [{
      mutationId := id, step := s.nextStep id, localSequence := sequence, inputPath := some name
      kind := .argument, key := none, operation := .argument, value := some value, ownerHistory := [] }] })
    fun t => { Recording.refl (n := id) t with operations := ⟨_, rfl, by simp⟩ }

/-- `format!("{name}[{index}]")` for a list slot, the slot name otherwise. -/
def operandPath (name : String) (cardinality : Cardinality) (index : Nat) : String :=
  if cardinality = .list then name ++ "[" ++ toString index ++ "]" else name

/-- The rows of one input slot (mutation_queue.rs:138-184): its derived operations, or one argument
row when it holds none. The derived operations left for the next slots are returned. -/
def enqueueSlot (id : Nat) (input : Json) (wire : List Operation) (slot : ActionInput) :
    Within (Recording id) (List Operation) :=
  match input.field slot.name with
  | none => pure wire
  | some value =>
    match slot with
    | .value name _ _ _ => do
      insertArgument id name value
      pure wire
    | .model name _ _ cardinality _ _ => do
      let count ← Within.lift (match cardinality with
        | .optional => .ok (if value.isNull then 0 else 1)
        | .list => match value.asArray with
          | some xs => .ok xs.length
          | none => .error "invalid list"
        | .single => .ok 1)
      if count = 0 then do
        insertArgument id name value
        pure wire
      else do
        Within.require (count ≤ wire.length) "missing derived input"
        (wire.take count).zipIdx.forM fun e =>
          E.applyInOrder (fun _ _ => Recording.ofLocal) e.1 .wire .effect fun kind o =>
            insertOwned id (if kind = .wire then some (operandPath name cardinality e.2) else none) kind o
        pure (wire.drop count)

/-- The operations `enqueue05` records for the call after its queue row (mutation_queue.rs:119-184). -/
def fillCall (id : Nat) (fresh : String → Json) (slots : List ActionInput) (input : Json)
    (operations companions : List Operation) : Within (Recording id) Unit := do
  companions.forM fun o => do
    let o ← Within.lift (E.normalize (fillOperation E.schema fresh o))
    E.applyInOrder (fun _ _ => Recording.ofLocal) o .companion .companion fun kind o => insertOwned id none kind o
  let _ ← slots.foldlM (E.enqueueSlot id input) operations
  pure ()

/-- The error other calls already recorded for a prerequisite key. -/
def knownError (s : Store) (key : String) : Option String :=
  ((s.prerequisites.filter (·.key = key)).filterMap (·.error)).max?

/-- The dependency and prerequisite rows of the call (mutation_queue.rs:185-199); the dependency table
checks `depends_on < ordinal`. -/
def linkCall (id : Nat) (d : Derived) (s : Store) : Except String Store := do
  check ((d.lifecycle ++ d.sequence).all (· < id)) "CHECK constraint failed"
  return { s with
    dependencies := s.dependencies ++ (d.lifecycle.map (⟨id, ·, .lifecycle⟩) ++ d.sequence.map (⟨id, ·, .sequence⟩))
    prerequisites := s.prerequisites ++ d.prerequisites.map fun key => ⟨id, key, knownError s key⟩ }

/-- The input of a call as it is saved: normalized, without the optional operands the caller left
out (mutation_queue.rs:78-104). -/
def callInput (a : ActionDescriptor) (fresh : String → Nat → String → Json) (input : Json) : Except String Json := do
  let some given := input.asObject | .error "input must be object"
  let normalized ← normalizeActionArgs E.platform E.schema a (.obj (fillActionArgs E.schema fresh a given))
  validateActionBindings E.platform E.schema a normalized
  return .obj (a.inputs.foldl (fun acc slot => match slot with
    | .model name _ _ .optional _ _ => if Fields.contains given name then acc else Fields.remove acc name
    | _ => acc) normalized.fields)

/-- A submission: the call, its generated values and its companions. -/
structure Submission where
  name : String
  version : Nat
  input : Json
  companions : List Operation := []
  fresh : String → Nat → String → Json := fun _ _ _ => .null
  freshCompanion : String → Json := fun _ => .null

/-- The queue row of a new call. -/
def newRow (s : Store) (name : String) (version : Nat) : MutationRow where
  id := s.row.nextMutationId
  name := name
  version := version
  descriptor := s.row.schemaDescriptor

/-- `enqueue05` (mutation_queue.rs:65), the body of `submit_mutation05`. -/
def enqueue (c : Submission) (s : Store) : Except String (Nat × Store) := do
  let a ← E.schema.action c.name c.version
  check (a.kind = .mutation) "only Mutations can be queued"
  let input ← E.callInput a c.fresh c.input
  let operations ← deriveOperations E.schema a input
  let derived ← E.derive s a input operations
  let id := s.row.nextMutationId
  check (id + 1 ≤ maxSafeInteger) "counter exhausted"
  let queued := { s with
    row := { s.row with nextMutationId := id + 1 }
    queue := s.queue ++ [newRow s c.name c.version] }
  let (_, t) ← (E.fillCall id c.freshCompanion a.inputs input operations c.companions).run queued
  let u ← linkCall id derived t
  return (id, u)

/-! ## Direct writes and companions -/

/-- `direct` (mutate.rs:473). -/
def direct (fresh : String → Json) (o : Operation) : Within Local Unit := do
  let o ← Within.lift (E.normalize (fillOperation E.schema fresh o))
  let s ← Within.read
  if o.op = .delete then
    (E.descendants s o.key).forM fun child => E.directOne (deleteOf child)
  else pure ()
  E.directOne o

/-- `independent_writes_after` (queue.rs:148). -/
def independentWritesAfter (s : Store) (ordinal : Nat) : Bool :=
  s.localWrites.any fun w => w.kind = .independent && ordinal ≤ w.ordinal

/-- `append_companion` (mutate.rs:396). -/
def appendCompanion (fresh : String → Json) (ordinal : Nat) (o : Operation) : Within Local Unit := do
  let s ← Within.read
  match s.mutation ordinal with
  | none => Within.fail "companion owner is not queued"
  | some r =>
    Within.require r.pending "companion owner is not queued"
    let _ ← Within.lift (E.queuedCall s r)
    Within.require r.batchId.isNone "companion owner is not an unsent Mutation call"
    Within.require (s.lastOrdinal = ordinal && !independentWritesAfter s ordinal)
      "a companion must follow its Mutation before any later write"
    let o ← Within.lift (E.normalize (fillOperation E.schema fresh o))
    E.applyInOrder (fun _ _ h => h) o .companion .companion fun kind o => appendOp ordinal kind o

end

end Engine

end Axton
