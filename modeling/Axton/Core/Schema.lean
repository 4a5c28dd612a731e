import Axton.Core.Json

/-!
# Schemas and record normalization

Model of `crates/core/src/schema.rs`: descriptors, `Schema::validate`, identities (`record_key`),
states (`normalize_state`, `validate_state`), patches (`validate_patch`) and scalars (`scalar`),
with `Schema::compatibility` as the admission of a newer schema over a stored one. The actions and the
retained reads that a schema declares (`actions.rs`) are part of it.

Display-only members (loads, client policies) belong to other subsystems and are not carried.
`relation.on_delete` is the flag `cascade` (`"delete"`, otherwise `"none"`).
-/

namespace Axton

inductive ScalarType where
  | string | boolean | int | float | dateTime | uuid
deriving DecidableEq, Repr

inductive ValueType where
  | scalar (name : ScalarType)
  | enum (name : String)
  | list (element : ValueType)
deriving DecidableEq, Repr

/-- How a fresh create fills an omitted field (schema.rs:108). -/
inductive CreateDefault where
  | literal (value : Json)
  | uuid
  | now
deriving DecidableEq

structure EnumDescriptor where
  name : String
  values : List String
deriving DecidableEq, Repr

structure FieldDescriptor where
  name : String
  valueType : ValueType
  nullable : Bool
  default : Option Json := none
  createDefault : Option CreateDefault := none
deriving DecidableEq

structure RelationDescriptor where
  name : String
  target : String
  fields : List String
  targetFields : List String
  cascade : Bool
deriving DecidableEq, Repr

structure ModelDescriptor where
  name : String
  bootstrap : Bool := false
  version : Nat := 1
  identity : List String
  fields : List FieldDescriptor
  relations : List RelationDescriptor := []
  unique : List (List String) := []
deriving DecidableEq

structure RequirementDescriptor where
  model : String
  field : String
  name : String
  arguments : List String
deriving DecidableEq, Repr

/-- A record's model and identity object. -/
structure RecordKey where
  model : String
  identity : Json
deriving DecidableEq

/-! ## Scalars -/

private def hexDigit (c : Char) : Bool :=
  c.isDigit || ('a' ≤ c && c ≤ 'f') || ('A' ≤ c && c ≤ 'F')

private def uuidShape : List Char → Nat → Bool
  | [], i => i == 36
  | c :: cs, i =>
    (if i == 8 || i == 13 || i == 18 || i == 23 then c == '-' else hexDigit c) && uuidShape cs (i + 1)

/-- The hyphens of a UUID in its place. -/
private def hyphenate (cs : List Char) : List Char :=
  cs.take 8 ++ '-' :: ((cs.drop 8).take 4 ++ '-' :: ((cs.drop 12).take 4 ++ '-' :: ((cs.drop 16).take 4 ++ '-' :: cs.drop 20)))

/-- A hyphenated UUID in lower case. -/
private def hyphenated (cs : List Char) : Option (List Char) :=
  if uuidShape cs 0 then some (cs.map Char.toLower) else none

/-- `Uuid::parse_str`, shown again: bare digits, the hyphenated form, and that one in braces or as a URN. -/
def parseUuid (cs : List Char) : Option (List Char) :=
  if cs.length = 36 then hyphenated cs
  else if cs.length = 32 ∧ cs.all hexDigit then some ((hyphenate cs).map Char.toLower)
  else if cs.length = 38 ∧ cs.head? = some '\x7b' ∧ cs.getLast? = some '\x7d' then hyphenated (cs.drop 1).dropLast
  else if cs.length = 45 ∧ "urn:uuid:".toList.isPrefixOf cs then hyphenated (cs.drop 9)
  else none

/-- A hyphenated RFC 4122 UUID of version 1 to 8 (schema.rs:479), in lower case. -/
def normalizeUuid (s : String) : Except String String :=
  match parseUuid s.toList with
  | none => .error "invalid UUID"
  | some cs =>
    let version := cs.getD 14 '0'
    let variant := cs.getD 19 '0'
    if s.toList.length = 36 ∧ '1' ≤ version ∧ version ≤ '8' ∧
        (variant = '8' ∨ variant = '9' ∨ variant = 'a' ∨ variant = 'b')
    then .ok (String.ofList cs) else .error "invalid UUID format/version"

theorem toLower_other {c : Char} (h : ¬ (c.val ≥ 'A'.val ∧ c.val ≤ 'Z'.val)) : c.toLower = c :=
  dif_neg h

theorem toLower_idem (c : Char) : c.toLower.toLower = c.toLower := by
  by_cases h : c.val ≥ 'A'.val ∧ c.val ≤ 'Z'.val
  · have hval : c.toLower.val = c.val + ('a'.val - 'A'.val) := congrArg Char.val (dif_pos h)
    refine toLower_other ?_
    rintro ⟨h1, h2⟩
    rw [hval] at h1 h2
    simp only [ge_iff_le, UInt32.le_iff_toNat_le, UInt32.toNat_add, UInt32.toNat_sub] at h h1 h2
    simp at h h1 h2
    omega
  · rw [toLower_other h, toLower_other h]

private theorem hexDigit_toLower : ∀ {c : Char}, hexDigit c = true → hexDigit c.toLower = true := by
  have table : ∀ n < 103, hexDigit (Char.ofNat n) = true → hexDigit (Char.ofNat n).toLower = true := by decide +kernel
  intro c h
  have hlt : c.toNat < 103 := by
    simp only [hexDigit, Char.isDigit, Bool.or_eq_true, Bool.and_eq_true, decide_eq_true_eq, Char.le_def,
      UInt32.le_iff_toNat_le, ge_iff_le] at h
    have h9 : '9'.val.toNat = 57 := rfl
    have hf : 'f'.val.toNat = 102 := rfl
    have hF : 'F'.val.toNat = 70 := rfl
    have hc : c.toNat = c.val.toNat := rfl
    omega
  have hof : Char.ofNat c.toNat = c := Char.ofNat_toNat c
  exact hof ▸ table c.toNat hlt (hof.symm ▸ h)

private theorem uuidShape_toLower : ∀ {cs : List Char} {i : Nat}, uuidShape cs i = true → uuidShape (cs.map Char.toLower) i = true
  | [], _, h => h
  | c :: cs, i, h => by
    simp only [uuidShape, List.map_cons, Bool.and_eq_true] at h ⊢
    refine ⟨?_, uuidShape_toLower h.2⟩
    have hc := h.1
    split at hc
    · rename_i hi
      rw [if_pos hi]
      rw [beq_iff_eq] at hc ⊢
      rw [hc]
      rfl
    · rename_i hi
      rw [if_neg hi]
      exact hexDigit_toLower hc

/-- A normal UUID is its own normal form. -/
theorem normalizeUuid_again {s u : String} (h : normalizeUuid s = .ok u) : normalizeUuid u = .ok u := by
  unfold normalizeUuid at h
  cases hp : parseUuid s.toList with
  | none => simp [hp] at h
  | some cs =>
    simp only [hp] at h
    split at h
    · rename_i hs
      obtain ⟨hlen, hversion⟩ := hs
      cases h
      rw [parseUuid, if_pos hlen, hyphenated] at hp
      split at hp
      · rename_i hshape
        cases hp
        have hagain : parseUuid (s.toList.map Char.toLower) = some (s.toList.map Char.toLower) := by
          rw [parseUuid, if_pos (by rw [List.length_map, hlen]), hyphenated, if_pos (uuidShape_toLower hshape), List.map_map]
          exact congrArg some (List.map_congr_left fun c _ => toLower_idem c)
        unfold normalizeUuid
        simp only [String.toList_ofList, hagain]
        rw [if_pos ⟨by rw [List.length_map, hlen], hversion⟩]
      · cases hp
    · cases h

/-- `scalar` (schema.rs:457). -/
def scalar (P : Platform) : ScalarType → Json → Except String Json
  | .string, .str s => .ok (.str s)
  | .boolean, .bool b => .ok (.bool b)
  | .int, .num n =>
    let f := n.asF64
    if f.den = 1 ∧ f.num.natAbs ≤ maxSafeInteger then .ok (.num (.ofInt f.num))
    else .error "integer outside safe range"
  | .int, _ => .error "expected integer"
  | .float, .num n => .ok (.num (.float n.asF64))
  | .float, _ => .error "expected finite float"
  | .uuid, .str s =>
    (normalizeUuid s).map .str
  | .uuid, _ => .error "expected UUID"
  | .dateTime, .str s =>
    -- the separator is read at byte 10, before `chrono` sees the text
    if s.utf8ByteSize < 20 ∨ s.toUTF8.data[10]? ≠ some 84 then .error "invalid zoned dateTime"
    else match P.dateTime s with
      | some t => .ok (.str t)
      | none => .error "invalid zoned dateTime"
  | .dateTime, _ => .error "expected zoned dateTime"
  | _, _ => .error "invalid scalar type"

/-- `Schema::value` (schema.rs:432). -/
def normalizeType (P : Platform) (enums : List EnumDescriptor) : ValueType → Json → Except String Json
  | .scalar name, v => scalar P name v
  | .enum name, v =>
    match v.asStr with
    | some s =>
      if enums.any fun e => e.name = name && e.values.contains s then .ok v
      else .error "invalid enum value"
    | none => .error "invalid enum value"
  | .list element, v =>
    match v.asArray with
    | some xs => (xs.mapM (normalizeType P enums element)).map .arr
    | none => .error "expected list"

/-! ## Actions -/

inductive CallKind where
  | mutation | query
deriving DecidableEq, Repr

inductive Cardinality where
  | single | optional | list
deriving DecidableEq, Repr

inductive OperationKind where
  | create | update | delete
deriving DecidableEq, Repr

/-- A relation binding of a Model input: the source slot and the local fields that hold its
identity (`metadata["bindings"]`). -/
structure Binding where
  slot : String
  fields : List String
deriving DecidableEq, Repr

/-- `ActionInputDescriptor` (actions.rs:102). -/
inductive ActionInput where
  | value (name : String) (valueType : ValueType) (nullable list : Bool)
  | model (name model : String) (operation : OperationKind) (cardinality : Cardinality)
      (allowedPatchFields : Option (List String)) (bindings : List Binding)
deriving DecidableEq, Repr

def ActionInput.name : ActionInput → String
  | .value n _ _ _ => n
  | .model n _ _ _ _ _ => n

structure ActionInputSnapshot where
  models : List ModelDescriptor
  enums : List EnumDescriptor
deriving DecidableEq

/-- One entry of `policy["sequence"]["after"]`: a call name and the argument paths that must meet. -/
structure SequenceReference where
  name : String
  arguments : List (String × String)
deriving DecidableEq, Repr

/-- What an output holds (`kind` of `ActionOutputDescriptor`). -/
inductive OutputKind where
  | value | model | deleteIdentity
deriving DecidableEq, Repr

inductive ActionOutputSource where
  | handlerValue | handlerIdentity
  | inputIdentity (input : String)
deriving DecidableEq, Repr

/-- The identity a handler returns for a Model output. -/
structure ActionIdentityType where
  kind : String
  model : String
  fields : List (String × ValueType)
deriving DecidableEq, Repr

structure ActionOutputDescriptor where
  name : String
  kind : OutputKind
  cardinality : Cardinality := .single
  source : ActionOutputSource
  valueType : Option ValueType := none
  model : Option String := none
  modelReadVersion : Option Nat := none
  handlerType : Option ActionIdentityType := none
deriving DecidableEq, Repr

structure ActionDescriptor where
  name : String
  version : Nat
  kind : CallKind := .mutation
  inputs : List ActionInput
  outputs : List ActionOutputDescriptor := []
  input : Option ActionInputSnapshot := none
  outputEnums : List EnumDescriptor := []
  requirements : Option (List RequirementDescriptor) := none
  sequence : List SequenceReference := []
deriving DecidableEq

/-- One published version of a model: what a loader of it returns. -/
structure ModelReadDescriptor where
  name : String
  version : Nat
  identity : List String
  fields : List FieldDescriptor
  enums : List EnumDescriptor := []
deriving DecidableEq

def ModelReadDescriptor.model (d : ModelReadDescriptor) : ModelDescriptor :=
  { name := d.name, version := d.version, identity := d.identity, fields := d.fields }

structure Schema where
  enums : List EnumDescriptor := []
  models : List ModelDescriptor
  actions : List ActionDescriptor := []
  resultModels : List ModelReadDescriptor := []
  requirements : List RequirementDescriptor := []
  prerequisites : List String := []
deriving DecidableEq

/-- `read_schema` (actions.rs:965). -/
def readSchema (S : Schema) (d : ModelReadDescriptor) : Schema := { S with models := [d.model], enums := d.enums }

namespace Schema

/-- `Schema::model` (schema.rs:336). -/
def model (S : Schema) (name : String) : Except String ModelDescriptor :=
  match S.models.find? (·.name = name) with
  | some m => .ok m
  | none => .error ("unknown model " ++ name)

/-- `Schema::action` (actions.rs:187). -/
def action (S : Schema) (name : String) (version : Nat) : Except String ActionDescriptor :=
  match S.actions.find? fun a => a.name = name && a.version = version with
  | some a => .ok a
  | none => .error ("unknown Action " ++ name ++ " v" ++ toString version)

/-- `Schema::result_model` (actions.rs:363). -/
def resultModel (S : Schema) (name : String) (version : Nat) : Except String ModelReadDescriptor :=
  match S.resultModels.find? fun d => d.name = name && d.version = version with
  | some d => .ok d
  | none => .error ("unknown result Model " ++ name ++ " v" ++ toString version)

end Schema

def ModelDescriptor.field (m : ModelDescriptor) (name : String) : Option FieldDescriptor :=
  m.fields.find? (·.name = name)

/-- `Schema::normalize_value` (schema.rs:423). -/
def normalizeValue (P : Platform) (enums : List EnumDescriptor) (f : FieldDescriptor) (v : Json) :
    Except String Json :=
  if v.isNull then
    if f.nullable then .ok .null else .error (f.name ++ " is not nullable")
  else normalizeType P enums f.valueType v

namespace Schema

/-- The identity object in key order, each field normalized (schema.rs:352). -/
def identityFields (P : Platform) (S : Schema) (m : ModelDescriptor) (input : Fields) :
    Except String Fields :=
  m.identity.foldlM (fun acc name => do
    let some field := m.field name | .error "identity descriptor missing"
    let some v := Fields.get input name | .error "identity missing"
    return Fields.insert acc name (← normalizeValue P S.enums field v)) []

/-- `Schema::record_key` (schema.rs:342). -/
def recordKey (P : Platform) (S : Schema) (name : String) (identity : Json) : Except String RecordKey := do
  let m ← S.model name
  let some input := identity.asObject | .error "identity must be an object"
  if input.length ≠ m.identity.length ∨ input.any fun e => !m.identity.contains e.1 then
    .error "identity must contain exactly identity fields"
  else
    return ⟨name, .obj (← S.identityFields P m input)⟩

/-- `Schema::state` (schema.rs:380): `loader` output may repeat identity fields, wire state may not. -/
def state (P : Platform) (S : Schema) (name : String) (v : Json) (loader : Bool) : Except String Json := do
  let m ← S.model name
  let some input := v.asObject | .error "state must be an object"
  if input.any fun e =>
      (loader && !(m.fields.any (·.name = e.1))) || (!loader && m.identity.contains e.1) then
    .error "unknown or identity state field"
  else
    let out ← (m.fields.filter fun f => !m.identity.contains f.name).foldlM (fun acc f => do
      let v ← match Fields.get input f.name with
        | some v => .ok v
        | none => if f.nullable then .ok .null else .error ("missing state field " ++ f.name)
      return Fields.insert acc f.name (← normalizeValue P S.enums f v)) []
    return .obj out

def normalizeState (P : Platform) (S : Schema) (name : String) (v : Json) : Except String Json :=
  S.state P name v true

def validateState (P : Platform) (S : Schema) (name : String) (v : Json) : Except String Json :=
  S.state P name v false

/-- `Schema::validate_patch` (schema.rs:404). -/
def validatePatch (P : Platform) (S : Schema) (name : String) (patch : Json) : Except String Json := do
  let m ← S.model name
  let some input := patch.asObject | .error "patch must be an object"
  let out ← input.foldlM (fun acc e => do
    if m.identity.contains e.1 then .error "identity is immutable"
    else
      let some f := m.field e.1 | .error "unknown patch field"
      return Fields.insert acc e.1 (← normalizeValue P S.enums f e.2)) []
  return .obj out

/-! ## Well-formed schemas -/

def validType (enums : List EnumDescriptor) : ValueType → Bool
  | .scalar _ => true
  | .enum name => enums.any (·.name = name)
  | .list (.scalar _) => true
  | .list _ => false

/-- `Schema::validate_create_default` (schema.rs:291). -/
def validCreateDefault (P : Platform) (S : Schema) (f : FieldDescriptor) : CreateDefault → Bool
  | .uuid => f.valueType = .scalar .string || f.valueType = .scalar .uuid
  | .now => f.valueType = .scalar .dateTime
  | .literal v =>
    !v.isNull && (match f.valueType with | .list _ => false | _ => true) &&
      (normalizeType P S.enums f.valueType v).isOk

/-- `reserved_model_name` (schema.rs:171). -/
def reservedModelName (name : String) : Bool :=
  let lower := name.toList.map Char.toLower
  "axton_".toList.isPrefixOf lower || "sqlite_".toList.isPrefixOf lower

def validField (P : Platform) (S : Schema) (f : FieldDescriptor) : Bool :=
  !f.name.isEmpty && validType S.enums f.valueType &&
    !((match f.valueType with | .list _ => true | _ => false) && f.nullable) &&
    (match f.createDefault with | none => true | some d => S.validCreateDefault P f d)

def validIdentity (m : ModelDescriptor) (name : String) : Bool :=
  match m.field name with
  | some f => !f.nullable && (match f.valueType with | .scalar _ => true | _ => false)
  | none => false

def validRelation (S : Schema) (m : ModelDescriptor) (r : RelationDescriptor) : Bool :=
  match S.model r.target with
  | .error _ => false
  | .ok target =>
    !r.name.isEmpty && r.fields.length = target.identity.length && r.targetFields = target.identity &&
      (r.fields.zip r.targetFields).all fun (loc, remote) =>
        match m.field loc, target.field remote with
        | some a, some b => decide (a.valueType = b.valueType)
        | _, _ => false

def validModel (P : Platform) (S : Schema) (m : ModelDescriptor) : Bool :=
  !reservedModelName m.name && !m.name.isEmpty && !m.identity.isEmpty && positive m.version &&
    decide ((m.fields.map (·.name)).Nodup) && m.fields.all (S.validField P) &&
    decide m.identity.Nodup && m.identity.all (validIdentity m) &&
    m.unique.all (fun u => !u.isEmpty && decide u.Nodup && u.all fun n => (m.field n).isSome) &&
    decide ((m.relations.map (·.name)).Nodup) && m.relations.all (S.validRelation m)

/-- The schema an action's inputs are read against (actions.rs:457). -/
def inputSchema (S : Schema) (a : ActionDescriptor) : Schema :=
  match a.input with
  | some snapshot => { S with models := snapshot.models, enums := snapshot.enums }
  | none => S

/-- `validate_action_type` (actions.rs:369): a list input is a flag of the input, not a type. -/
def validActionType (enums : List EnumDescriptor) : ValueType → Bool
  | .scalar _ => true
  | .enum name => enums.any (·.name = name)
  | .list _ => false

def validInput (S : Schema) (a : ActionDescriptor) : ActionInput → Bool
  | .value name ty nullable list =>
    !name.isEmpty && !(list && nullable) && validActionType (S.inputSchema a).enums ty
  | .model name model operation _ allowed _ =>
    !name.isEmpty && (S.model model).isOk &&
      match (S.inputSchema a).model model with
      | .error _ => false
      | .ok m => match allowed with
        | none => true
        | some fields =>
          operation = .update && decide fields.Nodup &&
            fields.all fun f => !m.identity.contains f && (m.field f).isSome

/-- The enums the values of an operation's outputs are read against (actions.rs:293). -/
def outputEnums (S : Schema) (enums : List EnumDescriptor) : List EnumDescriptor := if enums.isEmpty then S.enums else enums

/-- The identity type of a handler names the identity fields of its model (actions.rs:326). -/
def validHandlerType (m : ModelDescriptor) (model : String) (t : ActionIdentityType) : Bool :=
  t.kind = "identity" && t.model = model && t.fields.length = m.identity.length &&
    (t.fields.zip m.identity).all fun e => e.1.1 = e.2 && (m.field e.2).any (·.valueType = e.1.2)

/-- `validate_output` (actions.rs:278). -/
def validOutput (S : Schema) (a : ActionDescriptor) (o : ActionOutputDescriptor) : Bool :=
  match o.kind with
  | .value => o.valueType.any (validActionType (S.outputEnums a.outputEnums)) && o.source = .handlerValue
  | kind => match o.model with
    | none => false
    | some model => match S.model model with
      | .error _ => false
      | .ok m =>
        (kind ≠ .model || o.modelReadVersion.any fun v => (S.resultModel model v).isOk) &&
          match o.source with
          | .handlerIdentity => o.handlerType.any (validHandlerType m model)
          | .inputIdentity name => a.inputs.any fun input => match input with
            | .model inputName inputModel _ _ _ _ => inputName = name && inputModel = model
            | .value .. => false
          | .handlerValue => false

/-- `validate_query` (actions.rs:392). -/
def validQuery (a : ActionDescriptor) : Bool :=
  a.sequence.isEmpty && a.inputs.all fun input => match input with
    | .model .. => false
    | .value .. => true

def validAction (S : Schema) (a : ActionDescriptor) : Bool :=
  !a.name.isEmpty && positive a.version && (a.kind ≠ .query || validQuery a) &&
    decide ((a.inputs.map (·.name)).Nodup) && a.inputs.all (S.validInput a) &&
    decide ((a.outputs.map (·.name)).Nodup) && a.outputs.all fun o => !o.name.isEmpty && S.validOutput a o

/-- The enums and models of a schema (schema.rs:182-245). -/
def validModels (P : Platform) (S : Schema) : Bool :=
  S.enums.all (fun e => !e.name.isEmpty && !e.values.isEmpty && e.values.all (!·.isEmpty) && decide e.values.Nodup) &&
    decide ((S.enums.map (·.name) ++ S.models.map (·.name)).Nodup) && S.models.all (S.validModel P)

/-- A retained read contract is a schema of its own (actions.rs:198). -/
def validRead (P : Platform) (d : ModelReadDescriptor) : Bool := validModels P { models := [d.model], enums := d.enums }

/-- `Schema::validate` (schema.rs:182), on the members the model carries. -/
def validate (P : Platform) (S : Schema) : Bool :=
  !(S.models.isEmpty && S.actions.isEmpty) && S.validModels P &&
    S.requirements.all (fun r => match S.model r.model with
      | .error _ => false
      | .ok m => (m.field r.field).isSome && S.prerequisites.contains r.name) &&
    decide ((S.resultModels.map fun d => (d.name, d.version)).Nodup) && S.resultModels.all (validRead P) &&
    decide ((S.actions.map fun a => (a.name, a.version)).Nodup) && S.actions.all (S.validAction)

/-! ## Compatibility of a newer schema -/

def compatibleField (stored incoming : Schema) (new : ModelDescriptor) (f : FieldDescriptor) : Bool :=
  match new.field f.name with
  | none => false
  | some next =>
    decide (next.valueType = f.valueType) && next.nullable = f.nullable &&
      match f.valueType with
      | .enum name =>
        decide ((stored.enums.find? (·.name = name)).map (·.values)
          = (incoming.enums.find? (·.name = name)).map (·.values))
      | _ => true

def compatibleModel (stored incoming : Schema) (old : ModelDescriptor) : Bool :=
  match incoming.models.find? (·.name = old.name) with
  | none => false
  | some new =>
    decide (new.version = old.version) && decide (new.identity = old.identity) &&
      decide (new.unique = old.unique) && new.relations.all (old.relations.contains ·) &&
      old.relations.all (new.relations.contains ·) &&
      old.fields.all (compatibleField stored incoming new) &&
      new.fields.all fun f => (old.field f.name).isSome || f.nullable || f.default.isSome

/-- `Schema::compatibility` is not `Incompatible` (schema.rs:524). -/
def compatible (stored incoming : Schema) : Bool := stored.models.all (compatibleModel stored incoming)

end Schema

end Axton
