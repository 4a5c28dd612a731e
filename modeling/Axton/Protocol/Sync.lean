import Axton.Core.Actions
import Axton.Core.Authority
import Axton.Core.Canonical
import Axton.Core.Numbers
import Axton.Lib.Check

/-!
# Protocol 5 messages

Model of the message types of `crates/protocols/src/sync.rs` with their `Validate` rules.

| here | there |
|------|-------|
| `RequestContext.admitStore`, `admitContext` | `RequestContext::admit_store`, `admit` |
| `SettlementTarget`, `MutationOutcome`, `BatchAcknowledgement` | the same names |
| `AuthorityChange`, `DeliveryUnit`, `DeliveryHeader` | the same names |
| `Digest α` | a SHA-256 text over the canonical JSON of an `α` |

A digest is kept as a value it was taken of, one for each digest text. SHA-256 is read as collision free, so
the digest computed of a value is the stated one when both have one canonical text, which leaves the order of
entries and the form of numbers open (`Digest.matches`); and a digest text that is the hash of nothing is never
equal to a computed one. Batches keep one form on their way: their digests, and those of descriptors, are compared
as the values themselves.
-/

namespace Axton

/-- A digest, by what it was taken of. -/
structure Digest (α : Type) where
  of : α
deriving DecidableEq

/-- Values with a canonical text, each with the one among those of its text that is in normal form. -/
class Canonical (α : Type) where
  normal : α → α

/-- The stated digest is the one computed of `v`. -/
def Digest.matches {α : Type} [Canonical α] [DecidableEq α] (d : Digest α) (v : α) : Bool :=
  decide (Canonical.normal v = Canonical.normal d.of)

@[simp] theorem Digest.matches_self {α : Type} [Canonical α] [DecidableEq α] (v : α) : (⟨v⟩ : Digest α).matches v = true :=
  decide_eq_true rfl

/-- Values of one digest have one text. -/
theorem Digest.matches_same {α : Type} [Canonical α] [DecidableEq α] {d : Digest α} {v w : α} (hv : d.matches v = true)
    (hw : d.matches w = true) : Canonical.normal v = Canonical.normal w :=
  (of_decide_eq_true hv).trans (of_decide_eq_true hw).symm

/-- Digest functions over schemas (`materialization_id`, the stored-descriptor hash of `open05`). -/
structure Hashes where
  materializationId : Schema → String → String
  descriptorContext : Schema → String → String

def protocol : Nat := 5

structure RequestContext where
  protocol : Nat := 5
  storeId : String
  stream : String
  materialization : String
deriving DecidableEq, Repr

namespace RequestContext

/-- `RequestContext::validate` (sync.rs:91). -/
def validate (c : RequestContext) : Except String Unit := do
  check (c.protocol = Axton.protocol) "unsupported_protocol"
  check (nonblank c.storeId) "blank identifier"
  check (nonblank c.stream) "stream must not be empty"
  check (nonblank c.materialization) "blank identifier"

/-- `RequestContext::admit_store` (sync.rs:101). -/
def admitStore (c active : RequestContext) : Except String Unit := do
  c.validate
  active.validate
  check (c.storeId = active.storeId && c.stream = active.stream) "Store context mismatch"

/-- `RequestContext::admit` (sync.rs:110). -/
def admitContext (c active : RequestContext) : Except String Unit := do
  c.admitStore active
  check (c.materialization = active.materialization) "materialization mismatch"

theorem admitStore_ok {c active : RequestContext} {u : Unit} (h : c.admitStore active = .ok u) :
    c.validate = .ok () ∧ active.validate = .ok () ∧ c.storeId = active.storeId ∧ c.stream = active.stream := by
  simp only [admitStore, bind_ok, check_ok, Bool.and_eq_true, decide_eq_true_eq] at h
  obtain ⟨_, hc, _, ha, hs⟩ := h
  exact ⟨hc, ha, hs⟩

/-- An admitted context is the active one. -/
theorem admitContext_ok {c active : RequestContext} {u : Unit} (h : c.admitContext active = .ok u) : c = active := by
  simp only [admitContext, bind_ok, check_ok, decide_eq_true_eq] at h
  obtain ⟨_, hs, hm⟩ := h
  obtain ⟨hc, ha, hid, hst⟩ := admitStore_ok hs
  simp only [validate, bind_ok, check_ok, decide_eq_true_eq] at hc ha
  obtain ⟨_, hpc, _⟩ := hc
  obtain ⟨_, hpa, _⟩ := ha
  cases c; cases active; simp_all

end RequestContext

/-! ## Keys and records -/

/-- `RecordKey::validate` (sync.rs:134). -/
def RecordKey.validate (k : RecordKey) : Except String Unit := do
  check (nonblank k.model) "blank identifier"
  check k.identity.asObject.isSome "identity must be object"

/-- `RecordKey::encoded` of the core crate (schema.rs:160): canonical JSON of model and identity. -/
@[irreducible] def RecordKey.encoded (P : Platform) (k : RecordKey) : String :=
  "[" ++ (quote k.model ++ ("," ++ (P.canonicalJson k.identity ++ "]")))

/-- Equal texts are of one model and one identity text. -/
theorem RecordKey.encoded_inj {P : Platform} {k k' : RecordKey} : k.encoded P = k'.encoded P ↔
    k.model = k'.model ∧ P.canonicalJson k.identity = P.canonicalJson k'.identity := by
  constructor
  · intro h
    unfold encoded at h
    obtain ⟨hm, hi⟩ := quote_append_inj ((String.append_right_inj _).1 h)
    exact ⟨hm, (String.append_left_inj _).1 ((String.append_right_inj _).1 hi)⟩
  · rintro ⟨hm, hi⟩
    unfold encoded
    rw [hm, hi]

/-- `RecordKey::encoded` of the sync crate (sync.rs:127), the canonical JSON of the key's object: what a plan orders
its candidates by and compares them with. -/
@[irreducible] def RecordKey.syncText (P : Platform) (k : RecordKey) : String :=
  "\x7b\"identity\":" ++ (P.canonicalJson k.identity ++ (",\"model\":" ++ (quote k.model ++ "\x7d")))

/-- The two texts tell the same keys apart. -/
@[simp] theorem RecordKey.syncText_inj {P : Platform} {k k' : RecordKey} :
    k.syncText P = k'.syncText P ↔ k.encoded P = k'.encoded P := by
  rw [encoded_inj]
  constructor
  · intro h
    unfold syncText at h
    obtain ⟨hi, hm⟩ := append_member_inj ((String.append_right_inj _).1 h)
    exact ⟨hm, hi⟩
  · rintro ⟨hm, hi⟩
    unfold syncText
    rw [hm, hi]

/-- Keys with different texts, in either form. -/
theorem RecordKey.syncText_nodup {P : Platform} {α : Type} (key : α → RecordKey) {l : List α} :
    (l.map fun a => (key a).syncText P).Nodup ↔ (l.map fun a => (key a).encoded P).Nodup := by
  simp only [List.Nodup, List.pairwise_map, ne_eq, syncText_inj]

def RecordKey.normal (k : RecordKey) : RecordKey := ⟨k.model, k.identity.normal⟩

/-- `state` (sync.rs:55): an object, or null for an absent record. -/
def validState (v : Json) : Except String Unit :=
  check (v.isNull || v.asObject.isSome) "state must be object or null"

/-- A read snapshot; its cursor is always null. -/
structure ReadRecord where
  key : RecordKey
  state : Json
deriving DecidableEq

def ReadRecord.validate (r : ReadRecord) : Except String Unit := do
  r.key.validate
  validState r.state

inductive SettlementTarget where
  | stream (key : RecordKey) (cursor : Nat) (fallback : ReadRecord)
  | privately (record : ReadRecord)
deriving DecidableEq

namespace SettlementTarget

def key : SettlementTarget → RecordKey
  | .stream k _ _ => k
  | .privately r => r.key

/-- The snapshot a target settles from. -/
def record : SettlementTarget → ReadRecord
  | .stream _ _ fallback => fallback
  | .privately r => r

/-- `SettlementTarget::validate` (sync.rs:182). -/
def validate : SettlementTarget → Except String Unit
  | .stream k cursor fallback => do
    k.validate
    check (positive cursor) "positive counter required"
    fallback.validate
    check (k = fallback.key) "fallback target mismatch"
  | .privately r => r.validate

end SettlementTarget

/-! ## Mutations -/

inductive WireOperation where
  | argument | create | update | delete
deriving DecidableEq, Repr

def OperationKind.wire : OperationKind → WireOperation
  | .create => .create
  | .update => .update
  | .delete => .delete

structure MutationOperation where
  step : Nat
  inputPath : String
  operation : WireOperation
  model : Option String
  identity : Json
  value : Json
deriving DecidableEq

/-- `MutationOperation::validate` (sync.rs:219). -/
def MutationOperation.validate (o : MutationOperation) : Except String Unit := do
  check (counter o.step) "counter outside safe integer range"
  check (nonblank o.inputPath) "blank identifier"
  match o.operation with
  | .argument => check (o.model.isNone && o.identity.isNull) "argument cannot name Model"
  | kind => match o.model with
    | none => .error "Model operation lacks Model"
    | some model => do
      RecordKey.validate ⟨model, o.identity⟩
      if kind = .delete then check o.value.isNull "delete payload must be null"
      else check o.value.asObject.isSome "Model operation payload must be object"

structure Mutation where
  id : Nat
  name : String
  version : Nat
  descriptor : Digest ActionDescriptor
  operations : List MutationOperation
deriving DecidableEq

/-- What a batch digest is taken of: the request without its digest. -/
structure BatchBody where
  context : RequestContext
  batchId : Nat
  mutations : List Mutation
deriving DecidableEq

structure MutationRequest extends BatchBody where
  digest : Digest BatchBody
deriving DecidableEq

inductive MutationOutcome where
  | accepted (syncCursor : Nat) (result : Json) (targets : List SettlementTarget)
  | rejected (code : String) (message : Option String)
deriving DecidableEq

structure MutationResult where
  mutationId : Nat
  outcome : MutationOutcome
deriving DecidableEq

structure BatchAcknowledgement where
  context : RequestContext
  batchId : Nat
  digest : Digest BatchBody
  results : List MutationResult
deriving DecidableEq

/-- The rules of one outcome in `BatchAcknowledgement::validate` (sync.rs:299). -/
def MutationOutcome.validate (P : Platform) : MutationOutcome → Except String Unit
  | .accepted syncCursor _ targets => do
    check (counter syncCursor) "counter outside safe integer range"
    targets.forM fun t => do
      t.validate
      check (match t with | .stream _ cursor _ => decide (cursor ≤ syncCursor) | .privately _ => true)
        "settlement target exceeds fenced head"
    check (decide (targets.map fun t => t.key.encoded P).Nodup) "duplicate settlement target"
  | .rejected code _ => check (validCode code) "invalid rejection code"

/-- `BatchAcknowledgement::validate` (sync.rs:284). -/
def BatchAcknowledgement.validate (P : Platform) (a : BatchAcknowledgement) : Except String Unit := do
  a.context.validate
  check (positive a.batchId) "positive counter required"
  check (decide (a.results.map (·.mutationId)).Nodup) "duplicate result"
  a.results.forM fun r => do
    check (positive r.mutationId) "positive counter required"
    r.outcome.validate P

/-! ## Authority and delivery -/

/-- A request for a page of the Stream. -/
structure DeltaRequest where
  context : RequestContext
  after : Nat
  through : Nat
  bootstrap : Bool := false
deriving DecidableEq, Repr

/-- `DeltaRequest::validate` (sync.rs:428). -/
def DeltaRequest.validate (r : DeltaRequest) : Except String Unit := do
  r.context.validate
  check (counter r.after && counter r.through) "counter outside safe integer range"
  check (r.after ≤ r.through) "inverted range"

inductive AuthorityChange where
  | record (key : RecordKey) (cursor : Nat) (state : Json)
  | remove (key : RecordKey) (cursor : Nat)
deriving DecidableEq

namespace AuthorityChange

def key : AuthorityChange → RecordKey
  | .record k _ _ => k
  | .remove k _ => k

def cursor : AuthorityChange → Nat
  | .record _ c _ => c
  | .remove _ c => c

def normal : AuthorityChange → AuthorityChange
  | .record k c state => .record k.normal c state.normal
  | .remove k c => .remove k.normal c

@[simp] theorem normal_cursor (c : AuthorityChange) : c.normal.cursor = c.cursor := by cases c <;> rfl

/-- `AuthorityChange::validate` (sync.rs:432). -/
def validate (c : AuthorityChange) : Except String Unit := do
  c.key.validate
  check (positive c.cursor) "positive counter required"
  match c with
  | .record _ _ state => validState state
  | .remove _ _ => .ok ()

end AuthorityChange

structure DeliveryUnit where
  index : Nat
  through : Option Nat
  changes : List AuthorityChange
deriving DecidableEq

instance : Canonical DeliveryUnit where
  normal u := { u with changes := u.changes.map (·.normal) }

/-- Equal up to what the canonical text leaves open. -/
def DeliveryUnit.Same (u w : DeliveryUnit) : Prop := Canonical.normal u = Canonical.normal w

/-- `DeliveryUnit::validate` (delivery.rs:487). -/
def DeliveryUnit.validate (u : DeliveryUnit) : Except String Unit := do
  check (counter u.index) "counter outside safe integer range"
  check (u.through.all counter) "counter outside safe integer range"
  u.changes.forM AuthorityChange.validate
  check (decide (u.changes.map (·.key)).Nodup) "duplicate unit key"

/-- What a part digest is taken of (delivery.rs:404). -/
structure PartBody where
  unit : Nat
  part : Nat
  changes : List AuthorityChange
deriving DecidableEq

instance : Canonical PartBody where
  normal b := { b with changes := b.changes.map (·.normal) }

structure UnitManifest where
  through : Option Nat
  minimumCursor : Option Nat
  digest : Digest DeliveryUnit
  parts : List (Digest PartBody)
deriving DecidableEq

inductive MaterializationOwner where
  | settlement (batchId mutationId : Nat)
  | schema (previousMaterialization : String)
deriving DecidableEq, Repr

def MaterializationOwner.validate : MaterializationOwner → Except String Unit
  | .settlement b m => check (positive b && positive m) "positive counter required"
  | .schema previous => check (nonblank previous) "blank identifier"

/-- What a plan digest is taken of: the header without its digest. -/
structure HeaderBody where
  context : RequestContext
  planId : String
  bootstrap : Bool
  owner : Option MaterializationOwner
  after : Option Nat
  through : Option Nat
  observedHead : Nat
  expiresAt : Nat
  units : List UnitManifest
deriving DecidableEq

structure DeliveryHeader extends HeaderBody where
  digest : Digest HeaderBody
deriving DecidableEq

structure MaterializationRequest where
  context : RequestContext
  requestId : String
  owner : MaterializationOwner
  keys : List RecordKey
  models : Table String Nat
deriving DecidableEq

/-- `MaterializationRequest::validate` (sync.rs:547). -/
def MaterializationRequest.validate (r : MaterializationRequest) : Except String Unit := do
  r.context.validate
  check (nonblank r.requestId) "blank identifier"
  r.owner.validate
  r.keys.forM RecordKey.validate
  check (decide r.keys.Nodup) "duplicate materialization key"
  check (r.models.all fun m => nonblank m.1 && positive m.2) "positive counter required"
  match r.owner with
  | .settlement _ _ => check (r.models.isEmpty && !r.keys.isEmpty) "settlement materializes only owned keys"
  | .schema previous => check (previous ≠ r.context.materialization) "schema context did not change"

/-! ## A store of notes

A small schema to run calls on. -/

namespace Notes

mutual
/-- Canonical text of a value without fractions or escapes. -/
def text : Json → String
  | .null => "null"
  | .bool b => if b then "true" else "false"
  | .num (.posInt n) => toString n
  | .num (.negInt n) => "-" ++ toString (n + 1)
  | .num (.float q) => toString q.num
  | .str s => "\"" ++ s ++ "\""
  | .arr xs => "[" ++ textArr xs ++ "]"
  | .obj fs => "\x7b" ++ textObj fs ++ "\x7d"
def textArr : List Json → String
  | [] => ""
  | [x] => text x
  | x :: xs => text x ++ "," ++ textArr xs
def textObj : Fields → String
  | [] => ""
  | [(k, v)] => "\"" ++ k ++ "\":" ++ text v
  | (k, v) :: fs => "\"" ++ k ++ "\":" ++ text v ++ "," ++ textObj fs
end

/-- Times already in canonical form. -/
def platform : Platform where
  rereadNum := Num.reread
  dateTime := some
  canonicalJson := text

def hashes : Hashes where
  materializationId _ projection := "m-" ++ projection
  descriptorContext _ projection := "d-" ++ projection

def schema : Schema where
  models := [{
    name := "note", identity := ["id"]
    fields := [{ name := "id", valueType := .scalar .string, nullable := false },
      { name := "title", valueType := .scalar .string, nullable := false }] }]
  actions := [
    { name := "addNote", version := 1, inputs := [.model "note" "note" .create .single none []] },
    { name := "renameNote", version := 1, inputs := [.model "note" "note" .update .single none []] }]

end Notes

end Axton
