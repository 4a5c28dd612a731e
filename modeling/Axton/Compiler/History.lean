import Axton.Core.Widening
import Axton.Lib.Table

/-!
# Retained operation contracts

Model of `crates/compiler/src/history.rs`: `reconcile_action_history` keeps, for every published
operation, one snapshot of its contract per version. A republished version is replaced only when
`compatible` finds that its inputs still take what the retained ones took.

Snapshots are the JSON the compiler writes, read as descriptors. An entry of an input or output
object that no descriptor field holds is kept in `metadata`, since the comparison is by whole values.
A file that does not read as these types is refused by the shape checks (`list`, `as_object`) and has
no counterpart here. The history of models and of loads is `Axton.Compiler.ReadHistory`.
-/

namespace Axton.Compiler

/-- A declared input with the entries of its object that no descriptor field holds. -/
structure RetainedInput where
  input : ActionInput
  metadata : Fields := []
deriving DecidableEq

/-- A declared output; `model` is given exactly for the kind `model`. -/
structure RetainedOutput where
  name : String
  model : Option String := none
  modelReadVersion : Option Nat := none
  valueType : Option ValueType := none
  metadata : Fields := []
deriving DecidableEq

structure PrerequisiteDeclaration where
  name : String
  declaration : Json := .null
deriving DecidableEq

/-- One operation of the current configuration. -/
structure DeclaredAction where
  name : String
  version : Nat
  kind : Option Json := none
  inputs : List RetainedInput
  outputs : List RetainedOutput := []
  sequence : Json := .null
deriving DecidableEq

/-- A retained contract. -/
structure RetainedAction where
  name : String
  version : Nat
  kind : Option Json := none
  inputs : List RetainedInput
  outputs : List RetainedOutput := []
  input : ActionInputSnapshot
  outputEnums : List EnumDescriptor := []
  requirements : List RequirementDescriptor := []
  prerequisites : List PrerequisiteDeclaration := []
  sequence : Json := .null
deriving DecidableEq

/-- What the compiler hands over: names are unique because `validate` refused duplicates
(validate.rs:693, 870, 1471). `backendModels` are the retained read contracts, once they are known. -/
structure Configuration where
  models : List ModelDescriptor
  enums : List EnumDescriptor := []
  actions : List DeclaredAction
  requirements : List RequirementDescriptor := []
  prerequisites : List PrerequisiteDeclaration := []
  backendModels : Option (List (String × Nat)) := none
  actions_nodup : (actions.map (·.name)).Nodup
  inputs_nodup : ∀ a ∈ actions, (a.inputs.map (·.input.name)).Nodup
  fields_nodup : ∀ m ∈ models, (m.fields.map (·.name)).Nodup

/-- The contract as the invocation reads it (`ActionDescriptor`). -/
def RetainedAction.descriptor (a : RetainedAction) : ActionDescriptor :=
  { name := a.name, version := a.version, inputs := a.inputs.map (·.input), input := some a.input,
    requirements := some a.requirements }

/-! ## Capture -/

def isModelInput (i : RetainedInput) : Bool :=
  match i.input with
  | .model .. => true
  | .value .. => false

/-- The Model operands of an operation. -/
def slots (inputs : List RetainedInput) : List RetainedInput := inputs.filter isModelInput

def onModel (model : String) (i : RetainedInput) : Bool :=
  match i.input with
  | .model _ m _ _ _ _ => m = model
  | .value .. => false

/-- A slot uses a field: it creates the record, or may patch the field (history.rs:399). -/
def usesField (name : String) (i : RetainedInput) : Bool :=
  match i.input with
  | .model _ _ .create _ _ _ => true
  | .model _ _ .update _ allowed _ => allowed.all (·.contains name)
  | _ => false

/-- The part of a model that the slots on it use (history.rs:381). -/
def captureModel (slots : List RetainedInput) (m : ModelDescriptor) : Option ModelDescriptor :=
  let used := slots.filter (onModel m.name)
  if used.isEmpty then none
  else some {
    name := m.name
    identity := m.identity
    fields := (m.fields.map (·.withoutCreationPolicy)).filter fun f =>
      m.identity.contains f.name || used.any (usesField f.name) }

def enumName : ValueType → Option String
  | .enum name => some name
  | _ => none

/-- `capture` (history.rs:376): the models and enums the slots use. -/
def capture (config : Configuration) (slots : List RetainedInput) : ActionInputSnapshot :=
  let models := config.models.filterMap (captureModel slots)
  let names := models.flatMap fun m => m.fields.filterMap fun f => enumName f.valueType
  { models, enums := config.enums.filter fun e => names.contains e.name }

/-- Requirements on a captured field (history.rs:420). -/
def captureRequirements (config : Configuration) (models : List ModelDescriptor) : List RequirementDescriptor :=
  config.requirements.filter fun r => models.any fun m => m.name = r.model && m.fields.any (·.name = r.field)

/-- `retained_kind` (history.rs:198): a snapshot written before kinds existed is a mutation. The
message shows the refused value, which is a text unless the file was edited. -/
def retainedKind : Option Json → Except String CallKind
  | none => .ok .mutation
  | some (.str s) =>
    if s = "mutation" then .ok .mutation
    else if s = "query" then .ok .query
    else .error ("unsupported retained operation kind " ++ quote s)
  | some _ => .error "unsupported retained operation kind"

def kindText : CallKind → String
  | .mutation => "mutation"
  | .query => "query"

/-- The current enums that the given types name (history.rs:279). -/
def referenced (config : Configuration) (types : List ValueType) : List EnumDescriptor :=
  config.enums.filter fun e => (types.filterMap enumName).contains e.name

/-- The declared type of a value input: `list` is a flag beside it. -/
def inputType (i : RetainedInput) : Option ValueType :=
  match i.input with
  | .value _ ty _ _ => some ty
  | .model .. => none

/-- A Model output names a retained read contract (history.rs:247). -/
def checkOutput (config : Configuration) (o : RetainedOutput) : Except String Unit :=
  match config.backendModels, o.model with
  | some models, some model =>
    if models.any fun m => m.1 = model && some m.2 = o.modelReadVersion then .ok ()
    else .error ("operation output " ++ quote o.name ++ " has no retained Model read contract")
  | _, _ => .ok ()

/-- `capture_action` (history.rs:244). -/
def captureAction (config : Configuration) (action : DeclaredAction) : Except String RetainedAction := do
  action.outputs.forM (checkOutput config)
  let operand := capture config (slots action.inputs)
  let requirements := captureRequirements config operand.models
  let kind ← retainedKind action.kind
  return {
    name := action.name
    version := action.version
    kind := some (.str (kindText kind))
    inputs := action.inputs
    outputs := action.outputs
    input := { models := operand.models
               enums := operand.enums ++ referenced config (action.inputs.filterMap inputType) }
    outputEnums := referenced config (action.outputs.filterMap (·.valueType))
    requirements
    prerequisites := config.prerequisites.filter fun p => requirements.any (·.name = p.name)
    sequence := action.sequence }

/-! ## Compatibility -/

def RetainedInput.allowed (i : RetainedInput) : Option (List String) :=
  match i.input with
  | .model _ _ _ _ allowed _ => allowed
  | .value .. => none

def RetainedInput.withoutPatch (i : RetainedInput) : RetainedInput :=
  match i.input with
  | .model name model operation cardinality _ bindings =>
    { i with input := .model name model operation cardinality none bindings }
  | .value .. => i

/-- Two slots of one position (history.rs:453): equal but for the patch list, which loses no field.
A slot that had no list is not looked at further. -/
def slotCompatible (a b : RetainedInput) : Bool :=
  decide (a.withoutPatch = b.withoutPatch) &&
    match a.allowed with
    | some old => old.all fun f => b.allowed.any (·.contains f)
    | none => true

def enumCompatible (new : List EnumDescriptor) (e : EnumDescriptor) : Bool :=
  match new.find? (·.name = e.name) with
  | some next => e.values.all (next.values.contains ·)
  | none => false

/-- `same_shape` (history.rs:23). -/
def sameShape (fields : List FieldDescriptor) (f : FieldDescriptor) : Option Bool :=
  (fields.find? (·.name = f.name)).map fun next => decide (next.withoutCreationPolicy = f.withoutCreationPolicy)

def createsModel (model : String) (i : RetainedInput) : Bool :=
  match i.input with
  | .model _ m .create _ _ _ => m = model
  | _ => false

def modelCompatible (newSlots : List RetainedInput) (new : List ModelDescriptor) (m : ModelDescriptor) : Bool :=
  match new.find? (·.name = m.name) with
  | none => false
  | some next =>
    decide (m.identity = next.identity) && m.fields.all (fun f => sameShape next.fields f == some true) &&
      (!newSlots.any (createsModel m.name) ||
        next.fields.all fun f => (m.fields.find? (·.name = f.name)).isSome || f.nullable)

/-- `compatible` (history.rs:447). -/
def compatible (oldSlots newSlots : List RetainedInput) (old new : RetainedAction) : Bool :=
  oldSlots.length == newSlots.length && ((oldSlots.zip newSlots).all fun p => slotCompatible p.1 p.2) &&
    old.input.enums.all (enumCompatible new.input.enums) &&
    old.input.models.all (modelCompatible newSlots new.input.models) &&
    decide (old.requirements = new.requirements) && decide (old.sequence = new.sequence)

/-- `action_inputs_compatible` (history.rs:212). -/
def actionInputsCompatible (old new : RetainedAction) : Bool :=
  old.inputs.length == new.inputs.length &&
    ((old.inputs.zip new.inputs).all fun p =>
      isModelInput p.1 == isModelInput p.2 && (isModelInput p.1 || decide (p.1 = p.2))) &&
    compatible (slots old.inputs) (slots new.inputs) old new

/-- `same_version_contract` (history.rs:162). -/
def sameVersionContract (label : String) (old snapshot : RetainedAction) : Except String Unit :=
  if old.outputs ≠ snapshot.outputs ∨ old.outputEnums ≠ snapshot.outputEnums then
    .error (label ++ ": incompatible output change; increase @version")
  else if actionInputsCompatible old snapshot then .ok ()
  else .error (label ++ ": incompatible input change; increase @version")

/-- The judgement of a republished version (history.rs:42): kind first, then outputs and inputs. -/
def sameVersion (label : String) (old snapshot : RetainedAction) : Except String Unit := do
  let oldKind ← retainedKind old.kind
  let newKind ← retainedKind snapshot.kind
  if oldKind ≠ newKind then
    .error (label ++ ": kind changed from " ++ kindText oldKind ++ " to " ++ kindText newKind ++ "; increase @version")
  else sameVersionContract label old snapshot

/-! ## Retention -/

/-- Snapshots by the text of their version. -/
abbrev Versions := Table String RetainedAction

def retainedAt (t : Table String Versions) (name version : String) : Option RetainedAction :=
  (t.get name).bind (·.get version)

structure ActionHistory where
  formatVersion : Nat := 1
  actions : Table String Versions := []
deriving DecidableEq

/-- `str::parse::<u64>`: an optional sign, then digits, within range. -/
def parseVersion (text : String) : Option Nat :=
  let digits := match text.toList with
    | '+' :: cs => cs
    | cs => cs
  if digits.isEmpty || !digits.all Char.isDigit then none
  else
    let n := digits.foldl (fun n c => 10 * n + (c.toNat - 48)) 0
    if n < 2 ^ 64 then some n else none

/-- The highest retained version of an operation, 0 when it has none (history.rs:140). -/
def latestVersion (versions : Versions) : Except String Nat := do
  let numbers ← versions.mapM fun r => match parseVersion r.1 with
    | some n => (.ok n : Except String Nat)
    | none => .error "invalid retained operation version"
  return numbers.foldr max 0

/-- One operation of the loop of `retain_versions` (history.rs:120). -/
def retainOperation (config : Configuration) (retained : Table String Versions) (operation : DeclaredAction) :
    Except String (Table String Versions) := do
  let snapshot ← captureAction config operation
  let versions := (retained.get operation.name).getD []
  if versions.isEmpty ∧ operation.version ≠ 1 then
    .error (operation.name ++ ": initial operation history must begin at version 1")
  else
    let latest ← latestVersion versions
    if operation.version < latest then
      .error (operation.name ++ ": version cannot decrease from " ++ toString latest)
    else
      match versions.get (toString operation.version) with
      | some old => sameVersion (operation.name ++ " v" ++ toString operation.version) old snapshot
      | none => .ok ()
      return retained.set operation.name (versions.set (toString operation.version) snapshot)

/-- `retain_versions` (history.rs:108) over the operations of the configuration. -/
def retainVersions (config : Configuration) (retained : Table String Versions) :
    Except String (Table String Versions) :=
  match retained.find? fun r => !(config.actions.any (·.name = r.1)) with
  | some r => .error ("retained operation " ++ r.1 ++ " cannot be removed")
  | none => config.actions.foldlM (retainOperation config) retained

/-- Every retained version names a known kind and prerequisites that are still declared as they were
(history.rs:56). -/
def checkRetained (config : Configuration) (snapshot : RetainedAction) : Except String Unit := do
  let _ ← retainedKind snapshot.kind
  snapshot.prerequisites.forM fun p =>
    if config.prerequisites.find? (·.name = p.name) = some p then .ok ()
    else .error ("retained operation still requires original prerequisite " ++ quote p.name)

/-- `reconcile_action_history` (history.rs:30). -/
def reconcileActionHistory (config : Configuration) (history : Option ActionHistory) :
    Except String ActionHistory := do
  let result := history.getD {}
  if result.formatVersion ≠ 1 then .error "unsupported operation history format"
  else
    let actions ← retainVersions config result.actions
    actions.forM fun r => r.2.forM fun v => checkRetained config v.2
    return { result with actions }

/-- The snapshot retained under a name and a version. -/
def ActionHistory.snapshot (h : ActionHistory) (name version : String) : Option RetainedAction :=
  retainedAt h.actions name version

end Axton.Compiler
