import Axton.Core.Schema

/-!
# Action arguments and results

Model of the invocation half of `crates/core/src/actions.rs`: `normalize_action_args` reads business
arguments against an action's declared inputs (its retained snapshot when it has one),
`validate_action_bindings` checks that related operands name the same records, and
`validate_action_result` reads a result against the declared outputs.
-/

namespace Axton

/-- The entries of `fs` named by `names`, in the order of `names`, as one object. -/
def Fields.pick (fs : Fields) (names : List String) : Fields :=
  names.foldl (fun acc n => match Fields.get fs n with
    | some v => Fields.insert acc n v
    | none => acc) []

/-- The object entries of a value that is known to be an object. -/
def Json.fields (v : Json) : Fields := v.asObject.getD []

/-- `normalize_model_input` (actions.rs:567). -/
def normalizeModelInput (P : Platform) (S : Schema) (model : String) (operation : OperationKind)
    (allowed : Option (List String)) (v : Json) : Except String Json := do
  match operation with
  | .create =>
    let some object := v.asObject | .error "create input must be object"
    let m ← S.model model
    let key ← S.recordKey P model (.obj (Fields.pick object m.identity))
    let state ← S.normalizeState P model v
    return .obj (Fields.extend key.identity.fields state.fields)
  | .delete =>
    let some object := v.asObject | .error "delete input must be object"
    let key ← S.recordKey P model v
    if object.length ≠ key.identity.fields.length then .error "delete input has nonidentity fields"
    else return key.identity
  | .update =>
    let some object := v.asObject | .error "update input must be object"
    let m ← S.model model
    let key ← S.recordKey P model (.obj (Fields.pick object m.identity))
    let patch ← S.validatePatch P model (.obj (object.filter fun e => !m.identity.contains e.1))
    match allowed with
    | some names =>
      if patch.fields.any fun e => !names.contains e.1 then .error "disallowed Action patch field"
      else return .obj (Fields.extend key.identity.fields patch.fields)
    | none => return .obj (Fields.extend key.identity.fields patch.fields)

/-- `normalize_cardinality` (actions.rs:548). -/
def normalizeCardinality (cardinality : Cardinality) (v : Json) (one : Json → Except String Json) :
    Except String Json :=
  match cardinality with
  | .optional => if v.isNull then .ok .null else one v
  | .list => match v.asArray with
    | some xs => (xs.mapM one).map .arr
    | none => .error "expected Action list"
  | .single => one v

/-- One declared input of `normalize_inputs` (actions.rs:477). -/
def normalizeInput (P : Platform) (S : Schema) (input : ActionInput) (v : Json) : Except String Json :=
  match input with
  | .value name ty nullable list =>
    normalizeValue P S.enums
      { name, valueType := if list then .list ty else ty, nullable } v
  | .model _ model operation cardinality allowed _ =>
    normalizeCardinality cardinality v (normalizeModelInput P S model operation allowed)

/-- The argument an input reads: an absent optional operand is null (actions.rs:497). -/
def inputArgument (input : ActionInput) (object : Fields) : Except String Json :=
  match Fields.get object input.name with
  | some v => .ok v
  | none => match input with
    | .model _ _ _ .optional _ _ => .ok .null
    | _ => .error "Action required input missing"

/-- `normalize_inputs` (actions.rs:477). -/
def normalizeInputs (P : Platform) (S : Schema) (inputs : List ActionInput) (args : Json) :
    Except String Json := do
  let some object := args.asObject | .error "Action args must be an object"
  if object.any fun e => !(inputs.any (·.name = e.1)) then .error "Action args contain undeclared input"
  else
    let out ← inputs.foldlM (fun acc input => do
      let v ← inputArgument input object
      return Fields.insert acc input.name (← normalizeInput P S input v)) []
    return .obj out

/-- The operands a Model slot holds. -/
def operands (cardinality : Cardinality) (v : Json) : Except String (List Json) :=
  match cardinality with
  | .optional => .ok (if v.isNull then [] else [v])
  | .list => match v.asArray with
    | some xs => .ok xs
    | none => .error "invalid Action list"
  | .single => .ok [v]

/-- One binding of a Model input over its operands (actions.rs:672-752). -/
def validateBinding (P : Platform) (S : Schema) (a : ActionDescriptor) (args : Json) (model : String)
    (operation : OperationKind) (targets : List Json) (b : Binding) : Except String Unit := do
  let some source := a.inputs.find? (·.name = b.slot) | .error "unknown Action binding source"
  match source with
  | .value .. => .error "Action binding source must be a Model"
  | .model _ sourceModel _ sourceCardinality _ _ =>
    if sourceCardinality ≠ .single then .error "Action binding source must be single"
    else if (args.index b.slot).isNull then .error "Action binding source missing"
    else
      let sourceDesc ← S.model sourceModel
      let key ← S.recordKey P sourceModel
        (.obj (Fields.pick (args.index b.slot).fields sourceDesc.identity))
      if b.fields.length ≠ sourceDesc.identity.length then .error "Action binding identity arity mismatch"
      else
        let targetDesc ← S.model model
        let pairs := b.fields.zip sourceDesc.identity
        pairs.forM fun (loc, remote) => do
          let some t := targetDesc.field loc | .error "Action binding target field missing"
          let some s := sourceDesc.field remote | .error "Action binding source field missing"
          if t.valueType ≠ s.valueType then .error "Action binding field type mismatch" else .ok ()
        targets.forM fun target => pairs.forM fun (loc, remote) =>
          match target.field loc with
          | some actual =>
            if actual ≠ key.identity.index remote then .error "Action binding mismatch" else .ok ()
          | none => if operation = .create then .error "Action binding create field missing" else .ok ()

/-- `validate_action_bindings` (actions.rs:640). -/
def validateActionBindings (P : Platform) (S : Schema) (a : ActionDescriptor) (args : Json) :
    Except String Unit :=
  a.inputs.forM fun input => match input with
    | .value .. => .ok ()
    | .model name model operation cardinality _ bindings => do
      let targets ← operands cardinality (args.index name)
      if targets.isEmpty then .ok ()
      else bindings.forM (validateBinding P S a args model operation targets)

/-- `normalize_action_args` (actions.rs:465). -/
def normalizeActionArgs (P : Platform) (S : Schema) (a : ActionDescriptor) (args : Json) :
    Except String Json := do
  let normalized ← normalizeInputs P (S.inputSchema a) a.inputs args
  validateActionBindings P (S.inputSchema a) a normalized
  return normalized

/-! ## Results -/

/-- `normalize_result_model` (actions.rs:990). -/
def normalizeResultModel (P : Platform) (S : Schema) (model : String) (version : Nat) (v : Json) : Except String Json := do
  let d ← S.resultModel model version
  let contract := readSchema S d
  let some object := v.asObject | .error "Model result must be object"
  let key ← contract.recordKey P model (.obj (Fields.pick object d.identity))
  if object.length ≠ d.fields.length ∨ object.any fun e => !(d.fields.any (·.name = e.1)) then
    .error "Model result must contain exactly read fields"
  else
    let state ← contract.validateState P model (.obj (object.filter fun e => !d.identity.contains e.1))
    return .obj (Fields.extend key.identity.fields state.fields)

/-- One value of an output (actions.rs:787). -/
def normalizeOutput (P : Platform) (S : Schema) (a : ActionDescriptor) (o : ActionOutputDescriptor) (v : Json) :
    Except String Json :=
  match o.kind with
  | .value => match o.valueType with
    | none => .error "missing output type"
    | some ty => normalizeValue P (S.outputEnums a.outputEnums) { name := o.name, valueType := ty, nullable := false } v
  | .model => match o.model, o.modelReadVersion with
    | none, _ => .error "missing output model"
    | some _, none => .error "missing output read version"
    | some model, some version => normalizeResultModel P S model version v
  | .deleteIdentity => match o.model with
    | none => .error "missing output model"
    | some model => ((S.inputSchema a).recordKey P model v).map (·.identity)

/-- `validate_action_result` (actions.rs:758). -/
def validateActionResult (P : Platform) (S : Schema) (a : ActionDescriptor) (result : Json) : Except String Json :=
  if a.outputs.isEmpty then if result.isNull then .ok .null else .error "void Action result must be null"
  else match result.asObject with
    | none => .error "Action result must be object"
    | some object =>
      if object.length ≠ a.outputs.length ∨ object.any fun e => !(a.outputs.any (·.name = e.1)) then
        .error "Action result must contain exactly named outputs"
      else do
        let out ← a.outputs.foldlM (fun acc o => do
          return Fields.insert acc o.name (← normalizeCardinality o.cardinality ((Fields.get object o.name).getD .null)
            (normalizeOutput P S a o))) []
        return .obj out

end Axton
