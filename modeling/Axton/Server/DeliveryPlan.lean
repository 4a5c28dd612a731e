import Axton.Protocol.Delivery
import Axton.Server.Stream
import Mathlib.Data.Prod.Lex

/-!
# Pages of a Stream

Model of `crates/server/src/delivery_plan.rs`: which records a page may hold, how many of them it
takes, and how they are cut into units.

| here | there |
|------|-------|
| `models`, `selection` | `mutation_batch::models` with `materialization::model_versions`, `selection` |
| `candidates` | the `deliveryCandidates` query (postgres/src/persistence.mts:162) |
| `pagePositions`, `materialize`, `units` | the same names |
| `processDelivery`, `processLive`, `processMaterialization` | `process_delivery05`, `process_live05`, `process_materialization05` |

Each function reads one consistent `View`: the loader's preparation rounds and the application's
bootstrap publish before it. Store binding and the byte limits of a response are left out; both only
refuse a page.
-/

namespace Axton

namespace Server

/-! ## Configuration -/

/-- A materialization the server still serves (materialization.rs:6). -/
structure RetainedMaterialization where
  schema : Schema
  projectionGeneration : String := "1"

structure Config where
  schema : Schema
  projectionGeneration : String := "1"
  materializations : Table String RetainedMaterialization := []
  /-- The models with a registered Loader; only these are published. -/
  loaders : List String := []
  /-- The read contract of a model version, when it is retained (lib.rs:240). -/
  contract : String → Nat → Option Schema

section
variable (P : Platform) (H : Hashes) (config : Config)

/-- A retained model is served when its contract reads as it did (materialization.rs:40-53). -/
def servedContract (retained : Schema) (m : ModelDescriptor) : Bool :=
  match config.contract m.name m.version with
  | none => false
  | some served =>
    let actual := match served.models with
      | [] => served
      | first :: rest => { served with models := { first with bootstrap := m.bootstrap } :: rest }
    H.materializationId { retained with models := [m] } "read-contract-check" =
      H.materializationId actual "read-contract-check"

/-- `mutation_batch::models` (mutation_batch.rs:320) over `model_versions` (materialization.rs:17). -/
def models (materialization : String) : Except String (Table String Nat) :=
  if materialization = H.materializationId config.schema config.projectionGeneration then
    .ok (config.schema.models.map fun m => (m.name, m.version))
  else match config.materializations.get materialization with
    | none => .error "context_mismatch"
    | some retained => do
      check (H.materializationId retained.schema retained.projectionGeneration = materialization) "context_mismatch"
      check (retained.schema.models.all (servedContract H config retained.schema)) "context_mismatch"
      return retained.schema.models.map fun m => (m.name, m.version)

/-- `context_schema` (delivery_plan.rs:147). -/
def contextSchema (materialization : String) : Schema :=
  match config.materializations.get materialization with
  | some retained => retained.schema
  | none => config.schema

/-- `bootstrap_model` (delivery_plan.rs:155). -/
def bootstrapModel (materialization name : String) (version : Nat) : Bool :=
  (contextSchema config materialization).models.any fun m => m.name = name && m.version = version && m.bootstrap

/-- `selection` (delivery_plan.rs:167). -/
def selection (materialization : String) (bootstrap : Bool) : Except String (List String) := do
  let versions ← models H config materialization
  return (versions.filter fun m => !bootstrap || bootstrapModel config materialization m.1 m.2).map (·.1)

/-! ## Candidates -/

/-- A record and where it stands. -/
abbrev Position := RecordKey × Entry

/-- By cursor, model and identity (persistence.mts:180). -/
def positionLe (a b : Position) : Prop :=
  toLex (a.2.cursor, toLex (a.1.model, P.canonicalJson a.1.identity)) ≤
    toLex (b.2.cursor, toLex (b.1.model, P.canonicalJson b.1.identity))

instance : DecidableRel (positionLe P) := fun _ _ => inferInstanceAs (Decidable (toLex _ ≤ toLex _))

/-- `cursor_page_size` (delivery_plan.rs:245): without constraints a page may seek in the cursor index. -/
def cursorPageSize (S : Schema) : Option Nat :=
  if S.models.any fun m => !m.unique.isEmpty || m.relations.any (·.cascade) then none else some 500

/-- `FETCH FIRST n ROWS WITH TIES` of rows in cursor order. -/
def withTies (n : Nat) (rows : List Position) : List Position :=
  match rows[n - 1]? with
  | none => rows
  | some last => rows.filter fun r => decide (r.2.cursor ≤ last.2.cursor)

/-- The rows of the `deliveryCandidates` query, before its limit. -/
def candidateRows (v : View) (after : Nat) (models : List String) (keys : List RecordKey) : List Position :=
  (v.rows.filter fun r => decide (after < r.2.cursor) && (models.contains r.1.model || keys.contains r.1)).insertionSort
    (positionLe P)

def candidateCapacity : Nat := 100000

/-- `deliveryCandidates` (persistence.mts:162): one row more than a page, with its whole cursor. -/
def candidates (v : View) (after : Nat) (models : List String) (keys : List RecordKey) (pageSize : Option Nat) :
    Except String (List Position) := do
  let rows := candidateRows P v after models keys
  let rows := match pageSize with
    | none => rows
    | some size => withTies (size + 1) rows
  check (rows.length ≤ candidateCapacity) "delivery.capacity"
  return rows

/-! ## Units -/

/-- The first key of each model (delivery_plan.rs:371-376). -/
def representatives (changes : List AuthorityChange) : Table String RecordKey :=
  changes.foldl (fun t c => if (t.get c.key.model).isSome then t else t.set c.key.model c.key) []

/-- Records of two models that a cascading relation joins belong together (delivery_plan.rs:377-394). -/
def cascadeEdges (changes : List AuthorityChange) (m : ModelDescriptor) (r : RelationDescriptor) :
    List (RecordKey × RecordKey) :=
  match (representatives changes).get m.name, (representatives changes).get r.target with
  | some a, some b =>
    ((changes.filter fun c => c.key.model = m.name || c.key.model = r.target).map fun c => (a, c.key)) ++ [(a, b)]
  | _, _ => []

/-- `components` (delivery_plan.rs:355). -/
def components (S : Schema) (changes : List AuthorityChange) (after through head : Nat) :
    Except String (List DeliveryUnit) :=
  let unique := (S.models.filter fun m => !m.unique.isEmpty).map (·.name)
  let dependencies := S.models.flatMap fun m => (m.relations.filter (·.cascade)).flatMap (cascadeEdges changes m)
  planUnits P changes unique dependencies after through head

/-- `coalesce` (delivery_plan.rs:336): neighbouring units share a transport part while they fit. -/
def coalesce (target : Nat) : List DeliveryUnit → List DeliveryUnit → List DeliveryUnit
  | packed, [] => packed
  | packed, u :: rest =>
    let fresh := coalesce target (packed ++ [{ u with index := packed.length }]) rest
    match packed.getLast? with
    | none => fresh
    | some last =>
      if last.changes.length + u.changes.length ≤ target then
        coalesce target (packed.dropLast ++ [{ last with
          changes := last.changes ++ u.changes
          through := u.through.orElse fun _ => last.through }]) rest
      else fresh

/-- `units` (delivery_plan.rs:399). -/
def units (S : Schema) (changes : List AuthorityChange) (after through head : Nat) :
    Except String (List DeliveryUnit) :=
  (components P S changes after through head).map (coalesce 500 [])

/-! ## Pages -/

/-- A position as a change without content (delivery_plan.rs:417-435). -/
def metadata (p : Position) : AuthorityChange :=
  match p.2.kind with
  | .remove => .remove p.1 p.2.cursor
  | .upsert => .record p.1 p.2.cursor .null

/-- The group loop of `page_positions` (delivery_plan.rs:437-457): whole components while they fit,
and the prefix before the first omitted one. -/
def pageGroups (through : Nat) : List DeliveryUnit → Nat → List RecordKey → List RecordKey × Nat
  | [], _, selected => (selected, through)
  | g :: rest, count, selected =>
    match minimumCursor g.changes with
    | none => (selected, through)
    | some minimum =>
      if through < minimum then (selected, through)
      else if 0 < count ∧ 500 < count + g.changes.length then (selected, min through (minimum - 1))
      else pageGroups through rest (count + g.changes.length) (selected ++ g.changes.map (·.key))

/-- `page_positions` (delivery_plan.rs:409). -/
def pagePositions (S : Schema) (positions : List Position) (after through head : Nat) :
    Except String (List Position × Nat) := do
  let groups ← components P S (positions.map metadata) after through head
  let (selected, covered) := pageGroups through groups 0 []
  return (positions.filter fun p => selected.contains p.1, covered)

/-- The content of a record as its contract normalizes it (delivery_plan.rs:303-318). -/
def loadRecord (versions : Table String Nat) (p : Position) : Except String AuthorityChange :=
  match versions.get p.1.model with
  | none => .error "context_mismatch"
  | some version => match config.contract p.1.model version with
    | none => .error "model_version_unsupported"
    | some schema => match p.2.row with
      | none => .ok (.record p.1 p.2.cursor .null)
      | some row => match schema.normalizeState P p.1.model row with
        | .error _ => .error "loader.invalid"
        | .ok state => .ok (.record p.1 p.2.cursor state)

/-- `materialize` (delivery_plan.rs:259): removals first, then the records model by model. -/
def materialize (versions : Table String Nat) (positions : List Position) : Except String (List AuthorityChange) := do
  let removals := (positions.filter fun p => p.2.kind = .remove).map fun p => AuthorityChange.remove p.1 p.2.cursor
  let upserts := positions.filter fun p => p.2.kind = .upsert
  let names := (upserts.map (·.1.model)).dedup.insertionSort (· ≤ ·)
  let records ← (names.flatMap fun m => upserts.filter fun p => p.1.model = m).mapM (loadRecord P config versions)
  return removals ++ records

/-- How far a bounded query proves coverage (delivery_plan.rs:536-550). -/
def provenThrough (pageSize : Option Nat) (positions : List Position) (through : Nat) : Nat :=
  if pageSize.any (· < positions.length) then min through (((positions.map (·.2.cursor)).max?).getD 0) else through

/-- `process_delivery05` (delivery_plan.rs:496) at one view. -/
def processDelivery (v : View) (r : DeltaRequest) (planId : String) (now : Nat) : Except String FrozenDelivery := do
  r.validate
  let versions ← models H config r.context.materialization
  let schema := contextSchema config r.context.materialization
  let selected ← selection H config r.context.materialization r.bootstrap
  let positions ← candidates P v r.after selected [] (cursorPageSize schema)
  check (r.through ≤ v.head) "through ahead of head"
  let through := provenThrough (cursorPageSize schema) positions r.through
  let (page, covered) ← pagePositions P schema positions r.after through v.head
  let changes ← materialize P config versions page
  let packed ← units P schema changes r.after covered v.head
  freeze r.context planId r.bootstrap none (some r.after) (some covered) v.head (now + 300000) packed 500

/-- `process_live05` (delivery_plan.rs:884): the range reaches to the head it finds. -/
def processLive (v : View) (r : DeltaRequest) (planId : String) (now : Nat) : Except String FrozenDelivery := do
  r.validate
  processDelivery P H config v { r with through := v.head } planId now

/-! ## Owned transfers -/

/-- A settlement transfer is for stream targets of the accepted result it names
(delivery_plan.rs:600-625). -/
def ownsTargets (r : MaterializationRequest) (results : List MutationResult) : Except String Unit :=
  match r.owner with
  | .schema previous => do
    let _ ← models H config previous
    return ()
  | .settlement _ mutationId =>
    match results.find? (·.mutationId = mutationId) with
    | none => .error "unknown settlement owner"
    | some result => match result.outcome with
      | .rejected _ _ => .error "rejected settlement owner"
      | .accepted _ _ targets =>
        check (r.keys.all fun k => targets.any fun t => match t with
          | .stream key _ _ => key = k
          | .privately _ => false) "unowned settlement target"

/-- `process_materialization05` (delivery_plan.rs:583) at one view, with the results the server saved
for the batch. -/
def processMaterialization (v : View) (results : List MutationResult) (r : MaterializationRequest) (planId : String)
    (now : Nat) : Except String FrozenDelivery := do
  r.validate
  let versions ← models H config r.context.materialization
  ownsTargets H config r results
  check (r.models.all fun m => versions.get m.1 = some m.2 && bootstrapModel config r.context.materialization m.1 m.2)
    "unselected schema Model"
  check (r.keys.all fun k => (v.get k).isSome) "delivery.identity_untracked"
  let positions ← candidates P v 0 (r.models.map (·.1)) r.keys none
  let schema := contextSchema config r.context.materialization
  let changes ← materialize P config versions positions
  let packed ← units P schema changes 0 v.head v.head
  freeze r.context planId false (some r.owner) none none v.head (now + 300000)
    (packed.map fun u => { u with through := none }) 500

end

end Server

namespace Notes

def config : Server.Config where
  schema := schema
  projectionGeneration := "notes"
  contract _ _ := some schema

end Notes

end Axton
