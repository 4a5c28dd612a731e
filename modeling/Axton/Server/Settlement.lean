import Axton.Server.DeliveryPlan
import Axton.Lib.Program

/-!
# Publication of one settlement

Model of `crates/server/src/settlement.rs`: the changed records and the Stream intents of one settlement become one set of
member deltas. The tracking table is read before the Streams are locked, to know which to lock, and again behind the locks
and the record guards; the second read decides.

| here | source |
|---|---|
| `Intents.declare` | the loop over the declarations (settlement.rs:73-106) |
| `Intents.globals`, `pairs`, `guards` | the operands of `ReadTracking` and `GuardRecords` |
| `Intents.liveRows`, `deltas` | the final pairs (settlement.rs:166-192) |
| `settleChanges` | `settle_changes` |
-/

namespace Axton.Server

/-! ## Operands -/

structure RecordRef where
  model : String
  identity : Json
deriving DecidableEq

inductive StreamIntent where
  | track (stream : String) (record : RecordRef)
  /-- Of every Stream that holds the record, or of the selected ones. -/
  | invalidate (streams : Option (List String)) (record : RecordRef)
deriving DecidableEq

namespace StreamIntent

def record : StreamIntent → RecordRef
  | track _ r => r
  | invalidate _ r => r

def streams : StreamIntent → List String
  | track s _ => [s]
  | invalidate ss _ => ss.getD []

end StreamIntent

inductive Selection where
  | global
  | selected (streams : List String)
deriving DecidableEq

/-- `Selection::selects` (settlement.rs:37). -/
def Selection.selects : Selection → String → Bool
  | .global, _ => true
  | .selected streams, s => streams.contains s

structure MemberKey where
  model : String
  identityKey : String
deriving DecidableEq

structure TrackingPair where
  stream : String
  model : String
  identityKey : String
deriving DecidableEq

inductive GuardMode where
  | ensure | lock
deriving DecidableEq

structure GuardRecord where
  model : String
  identityKey : String
  mode : GuardMode
deriving DecidableEq

structure MemberDelta where
  stream : String
  key : RecordKey
  publish : Bool
deriving DecidableEq

/-- A retained position of a record (server_bridge/members.rs:28). -/
structure MemberPosition where
  stream : String
  key : RecordKey
  cursor : Nat
  kind : PositionKind
deriving DecidableEq

namespace Settlement

inductive Op where
  | readTracking (records : List MemberKey) (pairs : List TrackingPair)
  | lockStreams (streams : List String)
  | guardRecords (records : List GuardRecord)
  | applyStreamMembers (deltas : List MemberDelta)
deriving DecidableEq

inductive Ans where
  | tracking (rows : List TrackingPair)
  | guards (found : List Bool)
  | positions (positions : List MemberPosition)
  | acknowledged
deriving DecidableEq

abbrev Program := Prog Op Ans

/-- A row `ReadTracking` was asked for. -/
def asked (records : List MemberKey) (pairs : List TrackingPair) (p : TrackingPair) : Bool :=
  (records.any fun r => r.model = p.model && r.identityKey = p.identityKey) || pairs.contains p

section
variable (P : Platform) (parse : String → Option Json)

def memberKey (k : RecordKey) : MemberKey := ⟨k.model, P.canonicalJson k.identity⟩

def trackingPair (stream : String) (k : RecordKey) : TrackingPair := ⟨stream, k.model, P.canonicalJson k.identity⟩

/-- `record_key` (members.rs:36): the identity text must be canonical. -/
def recordKeyOf (model identityKey : String) : Except String RecordKey := do
  check (!model.isEmpty) "a member names no Model"
  match parse identityKey with
  | none => .error "invalid identityKey"
  | some identity =>
    check identity.asObject.isSome "identityKey is not an object"
    check (P.canonicalJson identity = identityKey) "identityKey is not canonical"
    return ⟨model, identity⟩

/-- The rows decode, differ, and were asked for (members.rs:146, server_bridge/mod.rs:281). -/
def tracking? (records : List MemberKey) (pairs : List TrackingPair) : Ans → Option (List TrackingPair)
  | .tracking rows =>
    if (rows.all fun p => nonblank p.stream && (recordKeyOf P parse p.model p.identityKey).isOk && asked records pairs p) &&
        decide rows.Nodup
    then some rows else none
  | _ => none

/-- One answer for each guard, and every ensured record found (server_bridge/mod.rs:304). -/
def guards? (records : List GuardRecord) : Ans → Option (List Bool)
  | .guards found =>
    if found.length = records.length && (records.zip found).all fun e => decide (e.1.mode = .lock) || e.2
    then some found else none
  | _ => none

def positions? : Ans → Option (List MemberPosition)
  | .positions ps => if ps.all fun p => nonblank p.stream then some ps else none
  | _ => none

def acknowledged? : Ans → Option Unit
  | .acknowledged => some ()
  | _ => none

/-! ## The declarations -/

/-- A `Changes` map: records by their canonical text (settlement.rs:27). -/
def changes (keys : List RecordKey) : Table String RecordKey :=
  keys.foldl (fun t k => t.set (k.encoded P) k) []

/-- What the changed records and the declarations add up to. -/
structure Intents where
  records : Table String RecordKey
  invalidations : Table String Selection
  tracks : Table (String × String) RecordKey := []
  named : List String := []
deriving DecidableEq

variable (config : Config)

/-- `resolve` (settlement.rs:18). -/
def resolve (record : RecordRef) : Except String RecordKey := do
  check (config.loaders.contains record.model)
    ("Model " ++ record.model ++ " has no registered Loader: it is device-only and never published")
  config.schema.recordKey P record.model record.identity

namespace Intents

/-- A selected invalidation joins an earlier one of the record; a global one stays (settlement.rs:92). -/
def select (i : Intents) (encoded : String) (streams : List String) : Selection :=
  match i.invalidations.get encoded with
  | some .global => .global
  | some (.selected s) => .selected (s ++ streams)
  | none => .selected streams

/-- One declaration (settlement.rs:73). -/
def declare (i : Intents) (intent : StreamIntent) : Except String Intents := do
  intent.streams.forM fun s => check (nonblank s) "stream must not be blank"
  let key ← resolve P config intent.record
  let encoded := key.encoded P
  match intent with
  | .track stream _ => return { i with
      named := stream :: i.named
      tracks := i.tracks.set (stream, encoded) key
      records := i.records.set encoded key }
  | .invalidate none _ => return { i with
      invalidations := i.invalidations.set encoded .global
      records := i.records.set encoded key }
  -- an empty selection does not even guard its record
  | .invalidate (some []) _ => return i
  | .invalidate (some streams) _ => return { i with
      named := streams ++ i.named
      invalidations := i.invalidations.set encoded (i.select encoded streams)
      records := i.records.set encoded key }

/-- The start of the loop: changed records are invalidated globally. -/
def start (changed : Table String RecordKey) : Intents where
  records := changed
  invalidations := changed.map fun r => (r.1, .global)

/-- The globally invalidated records, in text order. -/
def globals (i : Intents) : List MemberKey :=
  (i.invalidations.insertionSort fun a b => a.1 ≤ b.1).filterMap fun r =>
    match r.2 with
    | .global => (i.records.get r.1).map (memberKey P)
    | .selected _ => none

/-- The pairs the tracks name. -/
def trackPairs (i : Intents) : Table (String × String) TrackingPair :=
  i.tracks.map fun r => (r.1, trackingPair P r.1.1 r.2)

/-- The pairs the selected invalidations name. -/
def selectedPairs (i : Intents) : Table (String × String) TrackingPair :=
  i.invalidations.flatMap fun r =>
    match r.2, i.records.get r.1 with
    | .selected streams, some key => streams.map fun s => ((s, r.1), trackingPair P s key)
    | _, _ => []

/-- The pairs to read, in order of Stream and text. -/
def pairs (i : Intents) : List TrackingPair :=
  ((Table.setAll [] (i.trackPairs P ++ i.selectedPairs P)).insertionSort fun a b => toLex a.1 ≤ toLex b.1).map (·.2)

/-- Changed, invalidated and tracked records are ensured (settlement.rs:147). -/
def guards (i : Intents) : List GuardRecord :=
  (i.records.insertionSort fun a b => a.1 ≤ b.1).map fun r => ⟨r.2.model, P.canonicalJson r.2.identity,
    if (i.invalidations.get r.1).isSome || i.tracks.any (·.1.2 = r.1) then .ensure else .lock⟩

/-- One row of the second read. A holder of a globally invalidated record must have been locked. -/
def liveRow (i : Intents) (locked : List String) (live : Table (String × String) RecordKey) (p : TrackingPair) :
    Except String (Table (String × String) RecordKey) := do
  let key ← recordKeyOf P parse p.model p.identityKey
  check (!(i.invalidations.get (key.encoded P) = some .global && !locked.contains p.stream))
    "a new global holder appeared outside the canonical lock set; retry the whole transaction"
  return live.set (p.stream, key.encoded P) key

/-- The live pairs of the second read. -/
def liveRows (i : Intents) (locked : List String) (rows : List TrackingPair) :
    Except String (Table (String × String) RecordKey) := rows.foldlM (i.liveRow P parse locked) []

/-- The final pairs: the live ones, and the tracked ones over them. -/
def deltas (i : Intents) (live : Table (String × String) RecordKey) : List MemberDelta :=
  ((live.setAll i.tracks).insertionSort fun a b => toLex a.1 ≤ toLex b.1).map fun r =>
    ⟨r.1.1, r.2, (live.get r.1).isNone || (i.invalidations.get r.1.2).any (·.selects r.1.1)⟩

end Intents

/-- The intents of a settlement. -/
def intents (changed : Table String RecordKey) (declarations : List StreamIntent) : Except String Intents := do
  changed.forM fun r => check (config.loaders.contains r.2.model)
    ("Model " ++ r.2.model ++ " has no registered Loader: it is device-only and never published")
  declarations.foldlM (Intents.declare P config) (.start changed)

/-- One position against its delta; a Stream has one cursor for all it publishes (settlement.rs:209). -/
def checkPosition (published : Table String Nat) (e : MemberDelta × MemberPosition) : Except String (Table String Nat) := do
  check (counter e.2.cursor) "counter outside safe integer range"
  check (e.2.cursor ≠ 0 && e.1.stream = e.2.stream && e.1.key = e.2.key && e.2.kind = .upsert)
    "wrong publication position"
  if e.1.publish then
    check ((published.get e.1.stream).all (· = e.2.cursor)) "one Mutation has multiple Stream cursors"
    return published.set e.1.stream e.2.cursor
  else return published

/-- `check_positions05` (settlement.rs:201). -/
def checkPositions (deltas : List MemberDelta) (positions : List MemberPosition) : Except String Unit := do
  check (positions.length = deltas.length) "wrong position count"
  let _ ← (deltas.zip positions).foldlM checkPosition []

/-- `lock_streams` (settlement.rs:44). -/
def lockStreams (streams : List String) : Program Unit :=
  if streams.isEmpty then pure () else Prog.expect (.lockStreams streams) acknowledged?

/-- The Streams to lock: those the declarations name and those that hold a record read (settlement.rs:141). -/
def Intents.locked (i : Intents) (before : List TrackingPair) : List String :=
  ((i.named ++ before.map (·.stream)).dedup).insertionSort (· ≤ ·)

/-- The deltas are applied when there are any. -/
def apply (deltas : List MemberDelta) : Program Unit :=
  if deltas.isEmpty then pure () else do
    let positions ← Prog.expect (.applyStreamMembers deltas) positions?
    Prog.lift (checkPositions deltas positions)

/-- What is settled between the first read and the deltas. -/
def settle (i : Intents) : Program Unit := do
  let before ← Prog.expect (.readTracking (i.globals P) (i.pairs P)) (tracking? P parse (i.globals P) (i.pairs P))
  let locked := i.locked before
  lockStreams locked
  let guarded ← Prog.expect (.guardRecords (i.guards P)) (guards? (i.guards P))
  Prog.lift (check (guarded.length = i.records.length) "guard cardinality mismatch")
  let after ← Prog.expect (.readTracking (i.globals P) (i.pairs P)) (tracking? P parse (i.globals P) (i.pairs P))
  let live ← Prog.lift (i.liveRows P parse locked after)
  apply (i.deltas live)

/-- `settle_changes` (settlement.rs:54). -/
def settleChanges (changed : Table String RecordKey) (declarations : List StreamIntent) : Program Unit := do
  let i ← Prog.lift (intents P config changed declarations)
  if i.records.isEmpty then pure () else settle P parse i

end

end Settlement

end Axton.Server
