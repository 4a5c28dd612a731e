import Axton.Lib.Forest
import Axton.Protocol.Sync
import Mathlib.Data.List.Sort
import Mathlib.Data.String.Basic

/-!
# Delivery plans and settlement proofs

Model of `crates/protocols/src/sync/delivery.rs`: the constraint components of a page
(`plan_units`), frozen headers and their validation (`freeze`, `DeliveryHeader::validate`,
`validate_delivery`), owned transfers (`validate_materialization`, sync.rs:885) and the disposition
of a settlement target (`target_disposition`, `settlement_ready`).

The union-find of `plan_units` (delivery.rs:41-54) is `root` and `union` of `Axton.Lib.Forest`, path
halving included; its loop is bounded by the number of candidates.
-/

namespace Axton

/-! ## Planning units -/

/-- `(cursor, encoded key)`, the order of candidates and of groups. -/
def candidateLe (P : Platform) (a b : AuthorityChange) : Prop :=
  a.cursor < b.cursor ∨ (a.cursor = b.cursor ∧ ¬ b.key.syncText P < a.key.syncText P)

instance (P : Platform) : DecidableRel (candidateLe P) := fun _ _ => inferInstanceAs (Decidable (_ ∨ _))

/-- The maps of `plan_units` while it walks the candidates. -/
structure Components where
  ids : List Nat
  cursors : Table Nat Nat := []
  models : Table String Nat := []
  identities : Table String Nat := []

/-- One candidate (delivery.rs:53-64): joined with the last one of its cursor, and of its model when
that model has a unique set. -/
def Components.add (P : Platform) (uniqueModels : List String) (c : Components) (e : Nat × AuthorityChange) : Components :=
  let index := e.1
  let cursor := e.2.cursor
  let model := e.2.key.model
  let ids := match c.cursors.get cursor with
    | some previous => union c.ids previous index
    | none => c.ids
  let ids' := if uniqueModels.contains model then match c.models.get model with
      | some previous => union ids previous index
      | none => ids
    else ids
  { ids := ids'
    cursors := c.cursors.set cursor index
    models := if uniqueModels.contains model then c.models.set model index else c.models
    identities := c.identities.set (e.2.key.syncText P) index }

/-- An atomic reconstruction edge (delivery.rs:65-74). -/
def Components.join (P : Platform) (c : Components) (d : RecordKey × RecordKey) : Components :=
  match c.identities.get (d.1.syncText P), c.identities.get (d.2.syncText P) with
  | some a, some b => { c with ids := union c.ids a b }
  | _, _ => c

/-- The component of every candidate (delivery.rs:37-79). -/
def components (P : Platform) (uniqueModels : List String) (dependencies : List (RecordKey × RecordKey))
    (candidates : List AuthorityChange) : List Nat :=
  let start : Components := { ids := List.range candidates.length }
  let c := (candidates.zipIdx.map fun e => (e.2, e.1)).foldl (Components.add P uniqueModels) start
  let c := dependencies.foldl (Components.join P) c
  ((List.range candidates.length).foldl (fun ids i =>
    let (ids, r) := root ids.length ids i
    ids.set i r) c.ids)

/-- The members of one component, in candidate order. -/
def members (candidates : List AuthorityChange) (comps : List Nat) (r : Nat) : List AuthorityChange :=
  ((candidates.zip comps).filter fun e => decide (e.2 = r)).map (·.1)

/-- The components by number, without empty ones (`BTreeMap<usize, Vec<_>>`). -/
def groups (candidates : List AuthorityChange) (comps : List Nat) : List (List AuthorityChange) :=
  (comps.dedup.insertionSort (· ≤ ·)).map (members candidates comps)

def firstCursor (g : List AuthorityChange) : Nat := (g.head?.map (·.cursor)).getD 0

/-- Groups are ordered by their first candidate (delivery.rs:84). -/
def groupLe (P : Platform) (a b : List AuthorityChange) : Prop :=
  match a.head?, b.head? with
  | some x, some y => candidateLe P x y
  | none, _ => True
  | some _, none => False

instance (P : Platform) : DecidableRel (groupLe P)
  | [], _ => isTrue (by simp [groupLe])
  | _ :: _, [] => isFalse (by simp [groupLe])
  | x :: _, y :: _ => inferInstanceAs (Decidable (candidateLe P x y))

/-- A unit claims coverage up to the position before the next group, and never all of the range
before its last group (delivery.rs:95-111). -/
def boundUnits (through : Nat) : List (List AuthorityChange) → Nat → Nat → List DeliveryUnit
  | [], _, _ => []
  | [g], index, _ => [⟨index, some through, g⟩]
  | g :: h :: rest, index, covered =>
    let cap := min (through - 1) (firstCursor h - 1)
    let boundary := if 0 < through ∧ covered < cap then some cap else none
    ⟨index, boundary, g⟩ :: boundUnits through (h :: rest) (index + 1) (boundary.getD covered)

/-- `plan_units` (delivery.rs:8). -/
def planUnits (P : Platform) (changes : List AuthorityChange) (uniqueModels : List String)
    (dependencies : List (RecordKey × RecordKey)) (after through head : Nat) :
    Except String (List DeliveryUnit) := do
  check (counter after && counter through && counter head) "counter outside safe integer range"
  check (after ≤ through && through ≤ head) "invalid planner range"
  changes.forM AuthorityChange.validate
  check (changes.all (·.cursor ≤ head)) "candidate newer than frozen head"
  check (decide (changes.map (·.key.syncText P)).Nodup) "duplicate candidate"
  dependencies.forM fun d => do
    d.1.validate
    d.2.validate
  let candidates := (changes.filter fun c => decide (after < c.cursor)).insertionSort (candidateLe P)
  let gs := (groups candidates (components P uniqueModels dependencies candidates)).insertionSort (groupLe P)
  if gs.isEmpty then return [⟨0, some through, []⟩]
  else return boundUnits through gs 0 after

/-! ## Headers -/

/-- `min` of two optional positions (delivery.rs:446). -/
def minPosition : Option Nat → Option Nat → Option Nat
  | some a, some b => some (min a b)
  | a, none => a
  | none, b => b

/-- The least candidate position of a list of manifests (`suffix_minima`). -/
def suffixMinimum : List UnitManifest → Option Nat
  | [] => none
  | u :: rest => minPosition u.minimumCursor (suffixMinimum rest)

/-- The unit loop of `DeliveryHeader::validate` (delivery.rs:452-482). -/
def validateManifests (h : HeaderBody) : List UnitManifest → Option Nat → Except String Unit
  | [], _ => .ok ()
  | u :: rest, covered => do
    check (!u.parts.isEmpty) "unit has no parts"
    check (u.minimumCursor.all fun c => positive c && decide (c ≤ h.observedHead) && h.after.all (· < c))
      "invalid candidate minimum"
    match u.through with
    | none => validateManifests h rest covered
    | some t => do
      check (counter t && covered.any (· ≤ t) && h.through.any (t ≤ ·) &&
          !(!rest.isEmpty && some t = h.through) && (suffixMinimum rest).all (t < ·))
        "invalid unit coverage"
      validateManifests h rest (some t)

/-- The range or owner of a plan (delivery.rs:423-442). -/
def HeaderBody.validateRange (h : HeaderBody) : Except String Unit :=
  match h.owner, h.after, h.through with
  | some owner, none, none => do
    owner.validate
    check (owner ≠ .schema h.context.materialization) "schema context did not change"
    check (!h.bootstrap && h.units.all (·.through.isNone)) "materialization cannot claim range coverage"
  | none, some after, some through => do
    check (counter after && counter through) "counter outside safe integer range"
    check (after ≤ through && through ≤ h.observedHead) "invalid delivery range"
  | _, _, _ => .error "range/owner mismatch"

/-- `DeliveryHeader::validate` (delivery.rs:411). -/
def DeliveryHeader.validate (h : DeliveryHeader) : Except String Unit := do
  h.context.validate
  check (nonblank h.planId) "blank identifier"
  check (counter h.observedHead && counter h.expiresAt) "counter outside safe integer range"
  check (!h.units.isEmpty) "empty plan manifest"
  h.toHeaderBody.validateRange
  validateManifests h.toHeaderBody h.units h.after
  check (h.owner.isSome || (h.units.getLast?.bind (·.through)) = h.through) "incomplete range coverage"
  check (h.digest = ⟨h.toHeaderBody⟩) "plan digest mismatch"

/-- Every boundary of a validated header lies inside its range. -/
theorem validateManifests_through {h : HeaderBody} : ∀ {units : List UnitManifest} {covered : Option Nat},
    validateManifests h units covered = .ok () → ∀ u ∈ units, ∀ t, u.through = some t → ∃ e, h.through = some e ∧ t ≤ e
  | [], _, _, u, hu, _, _ => by cases hu
  | v :: rest, covered, hv, u, hu, t, ht => by
    simp only [validateManifests, bind_ok] at hv
    obtain ⟨_, _, _, _, hv⟩ := hv
    rcases List.mem_cons.1 hu with rfl | hu
    · simp only [ht, bind_ok, check_ok, Bool.and_eq_true, Option.any_eq_true, decide_eq_true_eq] at hv
      obtain ⟨_, ⟨⟨⟨-, e, he, hle⟩, -⟩, -⟩, -⟩ := hv
      exact ⟨e, he, hle⟩
    · split at hv
      · exact validateManifests_through hv u hu t ht
      · simp only [bind_ok] at hv
        obtain ⟨_, _, hv⟩ := hv
        exact validateManifests_through hv u hu t ht

theorem DeliveryHeader.validate_through {h : DeliveryHeader} (hv : h.validate = .ok ()) {i : Nat} {u : UnitManifest}
    (hu : h.units[i]? = some u) {t : Nat} (ht : u.through = some t) : ∃ e, h.through = some e ∧ t ≤ e := by
  simp only [DeliveryHeader.validate, bind_ok] at hv
  obtain ⟨_, _, _, _, _, _, _, _, _, _, _, hm, _⟩ := hv
  exact validateManifests_through hm u (List.mem_of_getElem? hu) t ht

/-- The digest of a validated header is that of its body. -/
theorem DeliveryHeader.validate_digest {h : DeliveryHeader} (hv : h.validate = .ok ()) : h.digest = ⟨h.toHeaderBody⟩ := by
  simp only [DeliveryHeader.validate, bind_ok, check_ok, decide_eq_true_eq] at hv
  obtain ⟨_, _, _, _, _, _, _, _, _, _, _, _, _, _, hd⟩ := hv
  exact hd

/-- `changes.iter().map(cursor).min()`. -/
def minimumCursor (changes : List AuthorityChange) : Option Nat := (changes.map (·.cursor)).min?

/-- The unit loop of `validate_delivery` (delivery.rs:527-545). -/
def validateUnit (h : DeliveryHeader) (index : Nat) (manifest : UnitManifest) (u : DeliveryUnit) :
    Except String Unit := do
  u.validate
  check (u.index = index && u.through = manifest.through && minimumCursor u.changes = manifest.minimumCursor &&
    manifest.digest.matches u) "unit digest or coverage mismatch"
  check (u.changes.all fun c => decide (c.cursor ≤ h.observedHead) && h.after.all (· < c.cursor))
    "candidate outside range or duplicate identity"

/-- `validate_delivery` (delivery.rs:521). -/
def validateDelivery (h : DeliveryHeader) (units : List DeliveryUnit) : Except String Unit := do
  h.validate
  check (units.length = h.units.length) "unit count mismatch"
  ((h.units.zip units).zipIdx).forM fun e => validateUnit h e.2 e.1.1 e.1.2
  check (decide ((units.flatMap (·.changes)).map (·.key)).Nodup)
    "candidate outside range or duplicate identity"

structure DeliveryPart where
  planId : String
  planDigest : Digest HeaderBody
  unit : Nat
  part : Nat
  changes : List AuthorityChange
deriving DecidableEq

/-- `DeliveryPart::validate` (delivery.rs:502). -/
def DeliveryPart.validate (p : DeliveryPart) : Except String Unit := do
  check (nonblank p.planId) "blank identifier"
  check (counter p.unit && counter p.part) "counter outside safe integer range"
  p.changes.forM AuthorityChange.validate
  check (decide (p.changes.map (·.key)).Nodup) "duplicate part key"

/-- What `part_digest` hashes (delivery.rs:380). -/
def DeliveryPart.body (p : DeliveryPart) : PartBody := ⟨p.unit, p.part, p.changes⟩

/-- The digest the manifest gives a part. -/
def HeaderBody.partDigest (h : HeaderBody) (unit part : Nat) : Option (Digest PartBody) :=
  h.units[unit]?.bind (·.parts[part]?)

/-- The part is the one its manifest names. -/
def HeaderBody.names (h : HeaderBody) (p : DeliveryPart) : Bool := (h.partDigest p.unit p.part).any (·.matches p.body)

/-- `slice::chunks`, bounded by the length. -/
def chunks {α : Type} (size : Nat) : Nat → List α → List (List α)
  | 0, _ => []
  | fuel + 1, xs => if xs.isEmpty then [] else xs.take size :: chunks size fuel (xs.drop size)

/-- The transport parts of a unit; an empty unit has one empty part (delivery.rs:611). -/
def unitChunks (partSize : Nat) (u : DeliveryUnit) : List (List AuthorityChange) :=
  if u.changes.isEmpty then [[]] else chunks partSize u.changes.length u.changes

def unitManifest (partSize : Nat) (u : DeliveryUnit) : UnitManifest where
  through := u.through
  minimumCursor := minimumCursor u.changes
  digest := ⟨u⟩
  parts := (unitChunks partSize u).zipIdx.map fun e => ⟨⟨u.index, e.2, e.1⟩⟩

structure FrozenDelivery where
  header : DeliveryHeader
  parts : List DeliveryPart
deriving DecidableEq

/-- `freeze` (delivery.rs:594), behind `freeze_delivery` and `freeze_materialization`. -/
def freeze (context : RequestContext) (planId : String) (bootstrap : Bool)
    (owner : Option MaterializationOwner) (after through : Option Nat) (observedHead expiresAt : Nat)
    (units : List DeliveryUnit) (partSize : Nat) : Except String FrozenDelivery := do
  check (partSize ≠ 0) "zero part size"
  units.forM DeliveryUnit.validate
  let body : HeaderBody := {
    context, planId, bootstrap, owner, after, through, observedHead, expiresAt
    units := units.map (unitManifest partSize) }
  let header : DeliveryHeader := { body with digest := ⟨body⟩ }
  validateDelivery header units
  return ⟨header, units.flatMap fun u => (unitChunks partSize u).zipIdx.map fun e =>
    ⟨planId, ⟨body⟩, u.index, e.2, e.1⟩⟩

/-! ## Owned transfers -/

/-- `admit_owned_context` (sync.rs:855). -/
def admitOwnedContext (context : RequestContext) (owner : Option MaterializationOwner)
    (active : RequestContext) : Except String Unit := do
  context.admitStore active
  match owner with
  | some (.schema previous) =>
    check (active.materialization = previous || active.materialization = context.materialization)
      "schema transfer context mismatch"
  | _ => context.admitContext active

/-- `DeliveryHeader::admit` (sync.rs:877). -/
def DeliveryHeader.admitContext (h : DeliveryHeader) (active : RequestContext) : Except String Unit := do
  h.validate
  admitOwnedContext h.context h.owner active

/-- `validate_materialization` (sync.rs:885): the complete transfer answers its request, with
nothing outside the requested keys and models. -/
def validateMaterialization (r : MaterializationRequest) (h : DeliveryHeader) (units : List DeliveryUnit) :
    Except String Unit := do
  r.validate
  validateDelivery h units
  check (h.context = r.context && h.owner = some r.owner) "owned transfer mismatch"
  let changes := units.flatMap (·.changes)
  check (changes.all fun c => r.keys.contains c.key || (r.models.get c.key.model).isSome)
    "unowned materialization identity"
  check (r.keys.all fun k => changes.any (·.key = k)) "incomplete materialization identity set"

/-! ## Responses -/

/-- What a delivery travels as. A network response may contain only some parts. -/
structure DeliveryResponse where
  header : DeliveryHeader
  parts : List DeliveryPart
deriving DecidableEq

namespace DeliveryResponse

/-- `DeliveryResponse::validate` (sync.rs:643). -/
def validate (d : DeliveryResponse) : Except String Unit := do
  d.header.validate
  d.parts.forM fun p => do
    p.validate
    check (p.planId = d.header.planId && p.planDigest = d.header.digest &&
      d.header.names p) "response part mismatch"
  check (decide (d.parts.map fun p => (p.unit, p.part)).Nodup) "response part mismatch"

/-- `DeliveryResponse::require_complete` (sync.rs:668). -/
def requireComplete (d : DeliveryResponse) : Except String Unit :=
  check (d.parts.length = (d.header.units.map (·.parts.length)).sum) "incomplete cursor page"

/-- `DeliveryResponse::admit` (sync.rs:675). -/
def admitPage (d : DeliveryResponse) (request : DeltaRequest) (active : RequestContext) : Except String Unit := do
  d.validate
  request.validate
  request.context.admitContext active
  check (d.header.context = request.context && d.header.owner.isNone && d.header.after = some request.after &&
    d.header.through.any (fun t => decide (t ≤ request.through) &&
      !(decide (request.after < request.through) && decide (t ≤ request.after))) &&
    d.header.bootstrap = request.bootstrap) "delta correlation mismatch"

end DeliveryResponse

structure MaterializationResponse where
  requestId : String
  delivery : DeliveryResponse
deriving DecidableEq

/-- Every change answers a requested key or model (sync.rs:624, delivery_queue.rs:408). -/
def MaterializationRequest.owns (P : Platform) (r : MaterializationRequest) (d : DeliveryResponse) : Bool :=
  (d.parts.flatMap (·.changes)).all fun c =>
    (r.keys.map (·.syncText P)).contains (c.key.syncText P) || (r.models.get c.key.model).isSome

/-- `MaterializationResponse::validate` (sync.rs:598). -/
def MaterializationResponse.validate (m : MaterializationResponse) : Except String Unit := do
  check (nonblank m.requestId) "blank identifier"
  m.delivery.validate
  check m.delivery.header.owner.isSome "owned materialization required"

/-- `MaterializationResponse::admit` (sync.rs:608). -/
def MaterializationResponse.admitOwned (P : Platform) (m : MaterializationResponse) (r : MaterializationRequest)
    (active : RequestContext) : Except String Unit := do
  m.validate
  r.validate
  admitOwnedContext r.context (some r.owner) active
  check (m.requestId = r.requestId && m.delivery.header.context = r.context && m.delivery.header.owner = some r.owner)
    "materialization correlation mismatch"
  check (r.owns P m.delivery) "unowned materialization key"

structure HandshakeRequest where
  protocol : Nat := 5
  storeId : String
  stream : String
deriving DecidableEq

/-- `HandshakeRequest::validate` (sync.rs:700). -/
def HandshakeRequest.validate (r : HandshakeRequest) : Except String Unit := do
  check (r.protocol = Axton.protocol) "unsupported_protocol"
  check (nonblank r.storeId) "blank identifier"
  check (nonblank r.stream) "stream must not be empty"

structure HandshakeResponse extends HandshakeRequest where
  head : Nat
deriving DecidableEq

/-- `HandshakeResponse::validate` (sync.rs:717). -/
def HandshakeResponse.validate (r : HandshakeResponse) : Except String Unit := do
  r.toHandshakeRequest.validate
  check (counter r.head) "counter outside safe integer range"

/-- `HandshakeResponse::admit` (sync.rs:729). -/
def HandshakeResponse.admitHandshake (r : HandshakeResponse) (request : HandshakeRequest) : Except String Unit := do
  r.validate
  request.validate
  check (r.toHandshakeRequest = request) "handshake correlation mismatch"

/-! ## Settlement -/

structure TargetEvidence where
  contentCursor : Option Nat := none
  materialization : Option String := none
  removedCursor : Option Nat := none
  isProtected : Bool := false
deriving DecidableEq, Repr

/-- `TargetEvidence::validate` (delivery.rs:268). -/
def TargetEvidence.validate (e : TargetEvidence) : Except String Unit := do
  check (e.contentCursor.isSome = e.materialization.isSome) "incomplete target evidence"
  check (e.contentCursor.all positive && e.removedCursor.all positive) "positive counter required"
  check (e.materialization.all nonblank) "blank identifier"

inductive TargetDisposition where
  | awaitAuthority | installedAuthority | finalizeOwned | preserveAuthority
deriving DecidableEq, Repr

/-- `target_disposition` (delivery.rs:294). -/
def targetDisposition (t : SettlementTarget) (materialization : String) (e : TargetEvidence) :
    Except String TargetDisposition := do
  t.validate
  check (nonblank materialization) "blank identifier"
  e.validate
  match t with
  | .stream _ cursor _ =>
    if e.materialization = some materialization ∧ e.contentCursor.any (cursor ≤ ·) then
      return .installedAuthority
    else if e.removedCursor.any (cursor < ·) then
      return if e.isProtected then .preserveAuthority else .finalizeOwned
    else return .awaitAuthority
  | .privately _ => return if e.isProtected then .preserveAuthority else .finalizeOwned

/-- `settlement_ready` (delivery.rs:327). -/
def settlementReady (syncCursor : Nat) (normalCursor : Option Nat) (targets : List SettlementTarget)
    (materialization : String) (evidence : RecordKey → TargetEvidence) : Except String Bool := do
  check (counter syncCursor && normalCursor.all counter) "counter outside safe integer range"
  check (nonblank materialization) "blank identifier"
  check (decide (targets.map (·.key)).Nodup) "duplicate settlement target"
  let dispositions ← targets.mapM fun t => targetDisposition t materialization (evidence t.key)
  return normalCursor.any (syncCursor ≤ ·) && dispositions.all (· ≠ .awaitAuthority)

end Axton
