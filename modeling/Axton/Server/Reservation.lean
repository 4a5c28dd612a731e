import Axton.Lib.Statement
import Axton.Lib.Pointwise
import Axton.Lib.Trace
import Axton.Server.LockOrder

/-!
# Publication in PostgreSQL

`applyStreamMembers` of the PostgreSQL host: within one transaction every Stream published to is given one position per
publication scope, kept in a temporary table, and the published pairs are moved there. A short run of one Stream does both
with one statement; any other reserves Stream by Stream and then writes in groups.

| here | there |
| --- | --- |
| `Tables`, `Tables.Constraints`              | migration.sql, and the temporary table of `V05_PUBLICATION_CURSORS` (sql.mts:61) |
| `reservation`                               | the parts `reserved`, `saved` and `cursors` of both statements |
| `reserveCursor`                             | `V05_RESERVE_CURSOR` (sql.mts:64) |
| `applyMembersBatch`                         | `V05_APPLY_MEMBERS_BATCH` (sql.mts:98) |
| `reserveApplyMembers`                       | `V05_RESERVE_APPLY_MEMBERS` (sql.mts:115) |
| `prepare`, `applyOne`, `applyMany`          | `applyStreamMembers` (persistence.mts:408) up to the branch, and its two branches |

The parts of a statement read its first snapshot: `cursors` finds a new reservation only among the rows that `saved`
returns, and an old one only in the table. What is proved of a whole transaction is proved of the general branch, since a
run that may be published by one statement is published alike by both.
-/

namespace Axton.Server.Postgres

/-! ## The tables -/

/-- The key of a reservation: the relation tells namespaces apart. -/
structure Scoped where
  relation : Nat
  stream : String
  scope : String
deriving DecidableEq

structure Tables where
  /-- `axton_stream`: the head of a Stream. -/
  stream : Table String Nat
  /-- `axton_record`: the id of a model and an identity text. -/
  record : Table (String × String) Nat
  /-- `axton_stream_record`: where a Stream holds a record. -/
  streamRecord : Table (String × Nat) (Nat × PositionKind)
  /-- `pg_temp.axton_publication_cursor`. -/
  publicationCursor : Table Scoped Nat
deriving DecidableEq

namespace Tables

/-- The keys and checks of the tables. -/
structure Constraints (t : Tables) : Prop where
  stream_key : (t.stream.map (·.1)).Nodup
  stream_head : ∀ r ∈ t.stream, r.2 ≤ maxSafeInteger
  record_key : (t.record.map (·.1)).Nodup
  record_id : (t.record.map (·.2)).Nodup
  pair_key : (t.streamRecord.map (·.1)).Nodup
  pair_stream : ∀ r ∈ t.streamRecord, r.1.1 ∈ t.stream.map (·.1)
  pair_record : ∀ r ∈ t.streamRecord, r.1.2 ∈ t.record.map (·.2)
  pair_cursor : ∀ r ∈ t.streamRecord, 1 ≤ r.2.1 ∧ r.2.1 ≤ maxSafeInteger
  cursor_key : (t.publicationCursor.map (·.1)).Nodup

instance (t : Tables) : Decidable t.Constraints :=
  decidable_of_iff
    ((t.stream.map (·.1)).Nodup ∧ (∀ r ∈ t.stream, r.2 ≤ maxSafeInteger) ∧ (t.record.map (·.1)).Nodup ∧
      (t.record.map (·.2)).Nodup ∧ (t.streamRecord.map (·.1)).Nodup ∧
      (∀ r ∈ t.streamRecord, r.1.1 ∈ t.stream.map (·.1)) ∧ (∀ r ∈ t.streamRecord, r.1.2 ∈ t.record.map (·.2)) ∧
      (∀ r ∈ t.streamRecord, 1 ≤ r.2.1 ∧ r.2.1 ≤ maxSafeInteger) ∧ (t.publicationCursor.map (·.1)).Nodup)
    ⟨fun ⟨h₁, h₂, h₃, h₄, h₅, h₆, h₇, h₈, h₉⟩ => ⟨h₁, h₂, h₃, h₄, h₅, h₆, h₇, h₈, h₉⟩,
      fun ⟨h₁, h₂, h₃, h₄, h₅, h₆, h₇, h₈, h₉⟩ => ⟨h₁, h₂, h₃, h₄, h₅, h₆, h₇, h₈, h₉⟩⟩

end Tables

/-- A database between two statements. -/
abbrev Database := { t : Tables // t.Constraints }

/-- The end of a statement. -/
def Tables.checked (t : Tables) : Except String Database :=
  if h : t.Constraints then .ok ⟨t, h⟩ else .error "a constraint is violated"

theorem Tables.checked_ok {t : Tables} {db : Database} : t.checked = .ok db ↔ db.1 = t := by
  unfold Tables.checked
  split
  · rw [Except.ok.injEq]
    exact ⟨fun h => h ▸ rfl, fun h => Subtype.ext h.symm⟩
  · rename_i hbad
    constructor
    · intro h
      cases h
    · intro h
      exact absurd (h ▸ db.2) hbad

/-- The head of a Stream; without a row it has published nothing. -/
def Database.head (db : Database) (stream : String) : Nat := (db.1.stream.get stream).getD 0

/-! ## The statements -/

def STREAM_BATCH : Nat := 1000

/-- One change of a request (`keyOf` with `identity`, `stream` and `publish`). -/
structure StreamDelta where
  stream : String
  model : String
  identityKey : String
  publish : Bool
deriving DecidableEq

structure Position where
  stream : String
  model : String
  identityKey : String
  cursor : Nat
  kind : PositionKind
deriving DecidableEq

/-- A row of the member statements; an absent pair has neither cursor nor kind. -/
structure MemberRow where
  represented : Bool
  position : Option (Nat × PositionKind)
deriving DecidableEq

section Statements

variable (relation : Nat) (scope : String)

/-- `SET head=axton_stream.head+1 WHERE axton_stream.head<9007199254740991`. -/
def nextHead (head _ : Nat) : Option Nat := if head < maxSafeInteger then some (head + 1) else none

/-- The new reservation, unless the scope has one. -/
def reserved (t : Tables) (stream : String) : Except String (Written String Nat) :=
  Written.upsert nextHead t.stream
    (if (t.publicationCursor.get ⟨relation, stream, scope⟩).isSome then [] else [(stream, 1)])

def saved (t : Tables) (stream : String) (reserved : Written String Nat) : Written Scoped Nat :=
  .insert t.publicationCursor (reserved.returning.map fun h => (⟨relation, stream, scope⟩, h.2))

/-- What `saved` returns, and what the snapshot holds. -/
def cursors (t : Tables) (stream : String) (saved : Written Scoped Nat) : List Nat :=
  saved.returning.map (·.2) ++ (t.publicationCursor.filter fun r => r.1 = ⟨relation, stream, scope⟩).map (·.2)

def reservation (t : Tables) (stream : String) : Except String (Tables × List Nat) := do
  let r ← reserved relation scope t stream
  let s := saved relation scope t stream r
  return ({ t with stream := r.table, publicationCursor := s.table }, cursors relation scope t stream s)

def reserveCursor (db : Database) (stream : String) : Except String (Database × List Nat) := do
  let (t, cursors) ← reservation relation scope db.1 stream
  return (← t.checked, cursors)

/-- `LEFT JOIN axton_record r USING(model,identity_key)`. -/
def recordOf (t : Tables) (d : StreamDelta) : Option Nat := t.record.get (d.model, d.identityKey)

/-- The rows of `written`; `cursor` is `NOT NULL`. -/
def batchCandidates (t : Tables) (wanted : List (StreamDelta × Option Nat)) :
    Except String (List ((String × Nat) × Nat × PositionKind)) :=
  (wanted.filterMap fun w => if w.1.publish then (recordOf t w.1).map fun id => (w, id) else none).mapM fun e =>
    match e.1.2 with
    | some cursor => .ok ((e.1.1.stream, e.2), (cursor, .upsert))
    | none => .error "null value in column \"cursor\" violates not-null constraint"

def applyMembersBatch (db : Database) (wanted : List (StreamDelta × Option Nat)) :
    Except String (Database × List MemberRow) := do
  let candidates ← batchCandidates db.1 wanted
  let written ← Written.upsert Written.excluded db.1.streamRecord candidates
  let rows := wanted.map fun w => {
    represented := (recordOf db.1 w.1).isSome
    position := (recordOf db.1 w.1).bind fun id =>
      if w.1.publish then Table.get written.returning (w.1.stream, id) else db.1.streamRecord.get (w.1.stream, id) }
  return (← { db.1 with streamRecord := written.table }.checked, rows)

/-- Each row with `overflow`. -/
def reserveApplyMembers (db : Database) (stream : String) (wanted : List StreamDelta) :
    Except String (Database × List (MemberRow × Bool)) := do
  let (t, cursors) ← reservation relation scope db.1 stream
  let candidates := wanted.flatMap fun d => cursors.filterMap fun cursor =>
    (recordOf db.1 d).map fun id => ((stream, id), (cursor, .upsert))
  let written ← Written.upsert Written.excluded db.1.streamRecord candidates
  let rows := wanted.map fun d => ({
    represented := (recordOf db.1 d).isSome
    position := (recordOf db.1 d).bind fun id => (written.returning.find? fun r => r.1.2 = id).map (·.2) }, cursors.isEmpty)
  return (← { t with streamRecord := written.table }.checked, rows)

end Statements

/-! ## The host -/

/-- `items` in groups of at most `STREAM_BATCH`, in order (persistence.mts:47). -/
def batches {α : Type} (items : List α) : List (List α) :=
  (List.range ((items.length + (STREAM_BATCH - 1)) / STREAM_BATCH)).map fun i =>
    (items.drop (i * STREAM_BATCH)).take STREAM_BATCH

def positiveCounter (n : Nat) : Except String Nat := do
  check (1 ≤ n && n ≤ maxSafeInteger) "Stored counter outside safe positive range"
  return n

def keyOf (d : StreamDelta) : Except String Unit := do
  check (d.model ≠ "") "record model must be a non-empty string"
  check (d.identityKey ≠ "") "record identityKey must be a non-empty string"

def pairId (d : StreamDelta) : String × String × String := (d.stream, d.model, d.identityKey)

/-- The answer to one change, from its row. -/
def memberPosition (d : StreamDelta) (row : MemberRow) : Except String Position := do
  check row.represented "missing canonical record metadata"
  match row.position with
  | some (cursor, .upsert) => return ⟨d.stream, d.model, d.identityKey, ← positiveCounter cursor, .upsert⟩
  | _ => .error "unpublished pair has no live position"

def headOverflow (stream : String) : String := "Stream " ++ stream ++ " head counter overflow"

/-- The Streams published to, in canonical order. -/
def publishedStreams (deltas : List StreamDelta) : Except String (List String) := do
  let named ← (deltas.filter (·.publish)).mapM fun d => do
    streamName d.stream
    return d.stream
  return named.dedup.insertionSort fun a b => byteOrder a b ≤ 0

def prepare (deltas : List StreamDelta) : Except String (List String) := do
  deltas.forM keyOf
  check (decide (deltas.map pairId).Nodup) "deltas repeats a key"
  publishedStreams deltas

section Host

variable (relation : Nat) (scope : String)

def applyOne (stream : String) (deltas : List StreamDelta) (db : Database) :
    Except String (Database × List Position) := do
  let (db, rows) ← reserveApplyMembers relation scope db stream deltas
  check (rows.length = deltas.length) "member cardinality mismatch"
  let positions ← (rows.zip deltas).mapM fun e => do
    check (!e.1.2) (headOverflow stream)
    memberPosition e.2 e.1.1
  return (db, positions)

def reserveStream (acc : Database × Table String Nat) (stream : String) :
    Except String (Database × Table String Nat) := do
  let (db, rows) ← reserveCursor relation scope acc.1 stream
  match rows with
  | [] => .error (headOverflow stream)
  | cursor :: _ => return (db, acc.2.set stream (← positiveCounter cursor))

/-- A cursor that is not in the map is left out of the text. -/
def applyGroup (cursors : Table String Nat) (acc : Database × List Position) (group : List StreamDelta) :
    Except String (Database × List Position) := do
  let wanted ← group.mapM fun d => do
    streamName d.stream
    return (d, cursors.get d.stream)
  let (db, rows) ← applyMembersBatch acc.1 wanted
  check (rows.length = group.length) "member cardinality mismatch"
  let positions ← (rows.zip group).mapM fun e => memberPosition e.2 e.1
  return (db, acc.2 ++ positions)

def applyMany (streams : List String) (deltas : List StreamDelta) (db : Database) :
    Except String (Database × List Position) := do
  let (db, cursors) ← streams.foldlM (reserveStream relation scope) (db, [])
  (batches deltas).foldlM (applyGroup cursors) (db, [])

/-- A bounded run that only publishes, to one Stream. -/
def Single (streams : List String) (deltas : List StreamDelta) (stream : String) : Prop :=
  streams = [stream] ∧ deltas.length ≤ STREAM_BATCH ∧ ∀ d ∈ deltas, d.publish = true

instance (streams : List String) (deltas : List StreamDelta) (stream : String) :
    Decidable (Single streams deltas stream) :=
  inferInstanceAs (Decidable (_ ∧ _ ∧ _))

def applyStreamMembers (deltas : List StreamDelta) (db : Database) : Except String (Database × List Position) := do
  let streams ← prepare deltas
  match streams with
  | [stream] =>
    if Single streams deltas stream then applyOne relation scope stream deltas db
    else applyMany relation scope streams deltas db
  | _ => applyMany relation scope streams deltas db

end Host

/-! ## A reservation -/

section Proofs

variable {relation : Nat} {scope : String}

/-- What a reservation may do: find the scope's position, take the next one, or find the head at its end. -/
theorem reservation_cases {db : Database} {stream : String} {t : Tables} {cs : List Nat}
    (h : reservation relation scope db.1 stream = .ok (t, cs)) :
    (∃ c, db.1.publicationCursor.get ⟨relation, stream, scope⟩ = some c ∧ t = db.1 ∧ cs = [c]) ∨
    (db.1.publicationCursor.get ⟨relation, stream, scope⟩ = none ∧ db.head stream < maxSafeInteger ∧
      t = { db.1 with
        stream := db.1.stream.set stream (db.head stream + 1)
        publicationCursor := db.1.publicationCursor ++ [(⟨relation, stream, scope⟩, db.head stream + 1)] } ∧
      cs = [db.head stream + 1]) ∨
    (db.1.publicationCursor.get ⟨relation, stream, scope⟩ = none ∧ t = db.1 ∧ cs = []) := by
  simp only [reservation, bind_ok, pure_ok, Prod.mk.injEq] at h
  obtain ⟨r, hr, rfl, rfl⟩ := h
  have hheld : ((db.1.publicationCursor.filter fun r => r.1 = ⟨relation, stream, scope⟩).map (·.2)) =
      (db.1.publicationCursor.get ⟨relation, stream, scope⟩).toList := Table.filter_key db.2.cursor_key _
  rw [reserved] at hr
  cases hget : db.1.publicationCursor.get ⟨relation, stream, scope⟩ with
  | some c =>
    rw [hget, Option.isSome_some, if_pos rfl, Written.upsert_nil, Except.ok.injEq] at hr
    subst hr
    refine .inl ⟨c, rfl, ?_, ?_⟩
    · simp [saved]
    · rw [cursors, hheld, hget]
      rfl
  | none =>
    rw [hget, if_neg (by simp), Written.upsert_singleton, Except.ok.injEq] at hr
    rw [cursors, hheld, hget]
    cases hhead : db.1.stream.get stream with
    | none =>
      have hzero : db.head stream = 0 := by simp [Database.head, hhead]
      simp only [hhead] at hr
      subst hr
      refine .inr (.inl ⟨rfl, by rw [hzero]; decide, ?_, ?_⟩)
      · simp [saved, hzero]
      · simp [saved, hzero]
    | some n =>
      have hn : db.head stream = n := by simp [Database.head, hhead]
      by_cases hlt : n < maxSafeInteger
      · simp only [hhead, nextHead, hlt, if_true] at hr
        subst hr
        refine .inr (.inl ⟨rfl, hn ▸ hlt, ?_, ?_⟩)
        · simp [saved, hn]
        · simp [saved, hn]
      · simp only [hhead, nextHead, hlt, if_false] at hr
        subst hr
        refine .inr (.inr ⟨rfl, ?_, ?_⟩)
        · simp [saved]
        · simp [saved]

/-! ## The two branches agree -/

/-- A reservation writes no record and no pair, and removes no Stream. -/
theorem reservation_frame {db : Database} {stream : String} {t : Tables} {cs : List Nat}
    (h : reservation relation scope db.1 stream = .ok (t, cs)) :
    t.record = db.1.record ∧ t.streamRecord = db.1.streamRecord ∧ ∀ s ∈ db.1.stream.map (·.1), s ∈ t.stream.map (·.1) := by
  obtain ⟨c, -, rfl, -⟩ | ⟨-, -, rfl, -⟩ | ⟨-, rfl, -⟩ := reservation_cases h
  · exact ⟨rfl, rfl, fun _ hs => hs⟩
  · exact ⟨rfl, rfl, fun _ hs => Table.mem_keys_set _ hs⟩
  · exact ⟨rfl, rfl, fun _ hs => hs⟩

/-- Reserving alone keeps what the whole statement keeps. -/
theorem reservation_checked {db : Database} {stream : String} {t : Tables} {cs : List Nat}
    (h : reservation relation scope db.1 stream = .ok (t, cs)) {pairs : Table (String × Nat) (Nat × PositionKind)}
    (hc : { t with streamRecord := pairs : Tables }.Constraints) : t.Constraints := by
  obtain ⟨hrecord, hpairs, hstream⟩ := reservation_frame h
  exact {
    stream_key := hc.stream_key
    stream_head := hc.stream_head
    record_key := hc.record_key
    record_id := hc.record_id
    pair_key := hpairs ▸ db.2.pair_key
    pair_stream := fun r hr => hstream _ (db.2.pair_stream r (hpairs ▸ hr))
    pair_record := fun r hr => hrecord ▸ db.2.pair_record r (hpairs ▸ hr)
    pair_cursor := fun r hr => db.2.pair_cursor r (hpairs ▸ hr)
    cursor_key := hc.cursor_key }

/-- The pairs one Stream writes at one position. -/
def targets (t : Tables) (stream : String) (cursor : Nat) (deltas : List StreamDelta) :
    List ((String × Nat) × Nat × PositionKind) :=
  deltas.filterMap fun d => (recordOf t d).map fun id => ((stream, id), (cursor, .upsert))

theorem oneCandidates (t : Tables) (stream : String) (cursor : Nat) (deltas : List StreamDelta) :
    (deltas.flatMap fun d => [cursor].filterMap fun cursor =>
      (recordOf t d).map fun id => ((stream, id), (cursor, PositionKind.upsert))) = targets t stream cursor deltas := by
  rw [targets, List.filterMap_eq_flatMap_toList]
  rfl

theorem batchCandidates_targets {t : Tables} {stream : String} {cursor : Nat} {deltas : List StreamDelta}
    (h : ∀ d ∈ deltas, d.publish = true ∧ d.stream = stream) :
    batchCandidates t (deltas.map fun d => (d, some cursor)) = .ok (targets t stream cursor deltas) := by
  rw [batchCandidates, mapM_ok, targets]
  induction deltas with
  | nil => exact .nil
  | cons d deltas ih =>
    obtain ⟨hpub, hstream⟩ := h d List.mem_cons_self
    have hrest := ih fun d hd => h d (List.mem_cons_of_mem _ hd)
    cases hid : recordOf t d with
    | none => simpa [hpub, hid] using hrest
    | some id =>
      simp only [List.map_cons, List.filterMap_cons, hpub, if_true, hid, Option.map_some]
      exact .cons (by rw [hstream]) hrest

/-- Rows of one Stream are told apart by their records. -/
theorem find_record {stream : String} {rows : List ((String × Nat) × Nat × PositionKind)}
    (h : ∀ r ∈ rows, r.1.1 = stream) (id : Nat) :
    (rows.find? fun r => r.1.2 = id).map (·.2) = Table.get rows (stream, id) := by
  induction rows with
  | nil => rfl
  | cons r rows ih =>
    obtain ⟨⟨s, i⟩, v⟩ := r
    have hs : s = stream := h _ List.mem_cons_self
    have hrest := ih fun r hr => h r (List.mem_cons_of_mem _ hr)
    by_cases hi : i = id
    · simp [Table.get, hs, hi]
    · simpa [Table.get, hs, hi] using hrest

theorem targets_stream {t : Tables} {stream : String} {cursor : Nat} {deltas : List StreamDelta} :
    ∀ r ∈ targets t stream cursor deltas, r.1.1 = stream := by
  intro r hr
  simp only [targets, List.mem_filterMap, Option.map_eq_some_iff] at hr
  obtain ⟨d, -, id, -, rfl⟩ := hr
  rfl

/-- The row of a change, where one Stream was written. -/
def servedRow (t : Tables) (stream : String) (written : Written (String × Nat) (Nat × PositionKind)) (d : StreamDelta) :
    MemberRow :=
  ⟨(recordOf t d).isSome, (recordOf t d).bind fun id => Table.get written.returning (stream, id)⟩

/-- One Stream published to by both parts: a position was reserved, and every pair stands there. -/
def Served (relation : Nat) (scope stream : String) (deltas : List StreamDelta) (db db' : Database) (ps : List Position) :
    Prop :=
  ∃ c t written, reservation relation scope db.1 stream = .ok (t, [c]) ∧
    Written.upsert Written.excluded db.1.streamRecord (targets db.1 stream c deltas) = .ok written ∧
    db'.1 = { t with streamRecord := written.table } ∧
    List.Forall₂ (fun d p => memberPosition d (servedRow db.1 stream written d) = .ok p) deltas ps

theorem zip_map_self {α β : Type} (f : α → β) (l : List α) : (l.map f).zip l = l.map fun a => (f a, a) := by
  induction l with
  | nil => rfl
  | cons a l ih => simp [ih]

theorem applyOne_iff {stream : String} {deltas : List StreamDelta} (hne : deltas ≠ []) {db db' : Database}
    {ps : List Position} :
    applyOne relation scope stream deltas db = .ok (db', ps) ↔ Served relation scope stream deltas db db' ps := by
  -- the rows of the statement are told apart by their records
  have hrow {c : Nat} {written : Written (String × Nat) (Nat × PositionKind)}
      (hup : Written.upsert Written.excluded db.1.streamRecord (targets db.1 stream c deltas) = .ok written)
      (d : StreamDelta) :
      (MemberRow.mk (recordOf db.1 d).isSome
        ((recordOf db.1 d).bind fun id => (written.returning.find? fun r => r.1.2 = id).map (·.2))) =
      servedRow db.1 stream written d := by
    have hret : ∀ r ∈ written.returning, r.1.1 = stream := by
      rw [(Written.upsert_excluded hup).1]
      exact targets_stream
    simp only [servedRow, find_record hret]
  simp only [applyOne, reserveApplyMembers, bind_ok, pure_ok, Prod.exists, Prod.mk.injEq, check_ok, exists_and_left,
    Tables.checked_ok, mapM_ok]
  constructor
  · rintro ⟨a, rows, ⟨t, cs, hres, written, hup, db₁, hdb, rfl, rfl⟩, -, -, ps', hps, rfl, rfl⟩
    rw [zip_map_self, List.forall₂_map_left_iff] at hps
    have hc : ∃ c, cs = [c] := by
      obtain ⟨c, -, -, hcs⟩ | ⟨-, -, -, hcs⟩ | ⟨-, -, rfl⟩ := reservation_cases hres
      · exact ⟨c, hcs⟩
      · exact ⟨_, hcs⟩
      · obtain ⟨d, rest, rfl⟩ := List.exists_cons_of_ne_nil hne
        cases hps with
        | cons h _ => simp at h
    obtain ⟨c, rfl⟩ := hc
    rw [oneCandidates] at hup
    refine ⟨c, t, written, hres, hup, hdb, hps.imp fun d p h => ?_⟩
    obtain ⟨-, -, h⟩ := h
    exact hrow hup d ▸ h
  · rintro ⟨c, t, written, hres, hup, hdb, hps⟩
    refine ⟨_, _, ⟨t, [c], hres, written, by rw [oneCandidates]; exact hup, db', hdb, rfl, rfl⟩, by simp, (), ps, ?_, rfl, rfl⟩
    rw [zip_map_self, List.forall₂_map_left_iff]
    refine hps.imp fun d p h => ⟨by simp, (), ?_⟩
    rw [hrow hup d]
    exact h

theorem positiveCounter_ok {n m : Nat} : positiveCounter n = .ok m ↔ (1 ≤ n ∧ n ≤ maxSafeInteger) ∧ n = m := by
  simp only [positiveCounter, bind_ok, check_ok, Bool.and_eq_true, decide_eq_true_eq, pure_ok, exists_const]

theorem batches_of_le {α : Type} {l : List α} (hne : l ≠ []) (h : l.length ≤ STREAM_BATCH) : batches l = [l] := by
  have hpos := List.length_pos_iff.2 hne
  have hone : (l.length + (STREAM_BATCH - 1)) / STREAM_BATCH = 1 := by
    unfold STREAM_BATCH at h ⊢
    omega
  rw [batches, hone]
  simp [List.range_succ, List.take_of_length_le h]

theorem reserveStream_ok {acc acc' : Database × Table String Nat} {stream : String} :
    reserveStream relation scope acc stream = .ok acc' ↔
      ∃ t c rest, reservation relation scope acc.1.1 stream = .ok (t, c :: rest) ∧ acc'.1.1 = t ∧
        (1 ≤ c ∧ c ≤ maxSafeInteger) ∧ acc'.2 = acc.2.set stream c := by
  obtain ⟨db', cursors'⟩ := acc'
  simp only [reserveStream, reserveCursor, bind_ok, pure_ok, Prod.exists, Prod.mk.injEq, Tables.checked_ok]
  constructor
  · rintro ⟨db, cs, ⟨t, cs', hres, db₁, hdb, rfl, rfl⟩, h⟩
    cases cs' with
    | nil => cases h
    | cons c rest =>
      simp only [bind_ok, positiveCounter_ok, pure_ok, Prod.mk.injEq] at h
      obtain ⟨m, ⟨hc, rfl⟩, rfl, rfl⟩ := h
      exact ⟨t, c, rest, hres, hdb, hc, rfl⟩
  · rintro ⟨t, c, rest, hres, hdb, hc, rfl⟩
    refine ⟨db', c :: rest, ⟨t, c :: rest, hres, db', hdb, rfl, rfl⟩, ?_⟩
    simp only [bind_ok, positiveCounter_ok, pure_ok, Prod.mk.injEq]
    exact ⟨c, ⟨hc, rfl⟩, trivial, rfl⟩

/-- The row of a change in a group. -/
def batchRow (t : Tables) (written : Written (String × Nat) (Nat × PositionKind)) (d : StreamDelta) : MemberRow where
  represented := (recordOf t d).isSome
  position := (recordOf t d).bind fun id =>
    if d.publish then Table.get written.returning (d.stream, id) else t.streamRecord.get (d.stream, id)

theorem applyGroup_ok {cursors : Table String Nat} {acc acc' : Database × List Position} {group : List StreamDelta} :
    applyGroup cursors acc group = .ok acc' ↔ (∀ d ∈ group, streamName d.stream = .ok ()) ∧
      ∃ candidates written ps,
        batchCandidates acc.1.1 (group.map fun d => (d, cursors.get d.stream)) = .ok candidates ∧
        Written.upsert Written.excluded acc.1.1.streamRecord candidates = .ok written ∧
        acc'.1.1 = { acc.1.1 with streamRecord := written.table } ∧
        List.Forall₂ (fun d p => memberPosition d (batchRow acc.1.1 written d) = .ok p) group ps ∧
        acc'.2 = acc.2 ++ ps := by
  obtain ⟨db', all⟩ := acc'
  rw [applyGroup, bind_ok]
  simp only [mapM_checked]
  simp only [applyMembersBatch, bind_ok, pure_ok, Prod.exists, Prod.mk.injEq, Tables.checked_ok, check_ok,
    exists_and_left, mapM_ok]
  constructor
  · rintro ⟨wanted, ⟨hnames, rfl⟩, db, rows, ⟨candidates, hcand, written, hup, db₁, hdb, rfl, rfl⟩, -, -, ps, hps, rfl, rfl⟩
    rw [List.map_map, zip_map_self, List.forall₂_map_left_iff] at hps
    exact ⟨hnames, candidates, hcand, written, hup, hdb, ps, hps, rfl⟩
  · rintro ⟨hnames, candidates, hcand, written, hup, hdb, ps, hps, rfl⟩
    refine ⟨_, ⟨hnames, rfl⟩, db', _, ⟨candidates, hcand, written, hup, db', hdb, rfl, rfl⟩, by simp, (), ps, ?_, rfl, rfl⟩
    rw [List.map_map, zip_map_self, List.forall₂_map_left_iff]
    exact hps

theorem memberPosition_ok {d : StreamDelta} {row : MemberRow} {p : Position} :
    memberPosition d row = .ok p ↔ row.represented = true ∧ ∃ c, row.position = some (c, .upsert) ∧
      (1 ≤ c ∧ c ≤ maxSafeInteger) ∧ p = ⟨d.stream, d.model, d.identityKey, c, .upsert⟩ := by
  obtain ⟨represented, position⟩ := row
  simp only [memberPosition, bind_ok, check_ok, exists_const]
  refine and_congr_right fun _ => ?_
  cases position with
  | none => simp
  | some row =>
    obtain ⟨c, kind⟩ := row
    cases kind with
    | remove => simp
    | upsert =>
      simp only [bind_ok, positiveCounter_ok, pure_ok, Option.some.injEq, Prod.mk.injEq, and_true]
      constructor
      · rintro ⟨n, ⟨hc, rfl⟩, rfl⟩
        exact ⟨c, rfl, hc, rfl⟩
      · rintro ⟨n, rfl, hc, rfl⟩
        exact ⟨c, ⟨hc, rfl⟩, rfl⟩

theorem targets_cursor {t : Tables} {stream : String} {cursor : Nat} {deltas : List StreamDelta} {k : String × Nat}
    {v : Nat × PositionKind} (h : (k, v) ∈ targets t stream cursor deltas) : v = (cursor, .upsert) := by
  simp only [targets, List.mem_filterMap, Option.map_eq_some_iff, Prod.mk.injEq] at h
  obtain ⟨d, -, id, -, -, rfl⟩ := h
  rfl

theorem applyMany_iff {stream : String} {deltas : List StreamDelta} (hne : deltas ≠ [])
    (hlen : deltas.length ≤ STREAM_BATCH) (hname : streamName stream = .ok ())
    (hall : ∀ d ∈ deltas, d.publish = true ∧ d.stream = stream) {db db' : Database} {ps : List Position} :
    applyMany relation scope [stream] deltas db = .ok (db', ps) ↔ Served relation scope stream deltas db db' ps := by
  have hnames : ∀ d ∈ deltas, streamName d.stream = .ok () := fun d hd => (hall d hd).2 ▸ hname
  have hwanted (c : Nat) : (deltas.map fun d => (d, Table.get [(stream, c)] d.stream)) = deltas.map fun d => (d, some c) :=
    List.map_congr_left fun d hd => by simp [Table.get, (hall d hd).2]
  have hrow (t : Tables) (written : Written (String × Nat) (Nat × PositionKind)) :
      ∀ d ∈ deltas, batchRow t written d = servedRow t stream written d := by
    intro d hd
    obtain ⟨hpub, rfl⟩ := hall d hd
    simp [batchRow, servedRow, hpub]
  have hsame {t : Tables} (h : t.record = db.1.record) (c : Nat) :
      targets t stream c deltas = targets db.1 stream c deltas := by
    simp only [targets, recordOf, h]
  have hserved {t : Tables} (h : t.record = db.1.record) (written : Written (String × Nat) (Nat × PositionKind))
      (d : StreamDelta) : servedRow t stream written d = servedRow db.1 stream written d := by
    simp only [servedRow, recordOf, h]
  rw [applyMany, batches_of_le hne hlen]
  simp only [List.foldlM_cons, List.foldlM_nil, bind_pure, bind_ok]
  constructor
  · rintro ⟨⟨db₁, cursors⟩, hreserve, hgroup⟩
    obtain ⟨t, c, rest, hres, ht, -, hcursors⟩ := reserveStream_ok.1 hreserve
    subst ht hcursors
    obtain ⟨hrecord, hpairs, -⟩ := reservation_frame hres
    obtain ⟨-, candidates, written, ps', hcand, hup, hdb, hps, hps'⟩ := applyGroup_ok.1 hgroup
    have hrest : rest = [] := by
      obtain ⟨_, -, -, hcs⟩ | ⟨-, -, -, hcs⟩ | ⟨-, -, hcs⟩ := reservation_cases hres
      · exact (List.cons.inj hcs).2
      · exact (List.cons.inj hcs).2
      · cases hcs
    have hcand' : batchCandidates db₁.1 (deltas.map fun d => (d, some c)) = .ok candidates := by
      rw [← hwanted]
      exact hcand
    rw [batchCandidates_targets hall, Except.ok.injEq] at hcand'
    subst hrest hcand'
    rw [hsame hrecord, hpairs] at hup
    refine ⟨c, db₁.1, written, hres, hup, hdb, ?_⟩
    have hps' : ps = ps' := hps'
    rw [hps']
    refine ((List.forall₂_and_left ..).2 ⟨hrow db₁.1 written, hps⟩).imp fun d p h => ?_
    rw [← hserved hrecord, ← h.1]
    exact h.2
  · rintro ⟨c, t, written, hres, hup, hdb, hps⟩
    obtain ⟨hrecord, hpairs, -⟩ := reservation_frame hres
    have hnew : { t with streamRecord := written.table : Tables }.Constraints := hdb ▸ db'.2
    have ht : t.Constraints := reservation_checked hres hnew
    have hc : 1 ≤ c ∧ c ≤ maxSafeInteger := by
      obtain ⟨d, rest, rfl⟩ := List.exists_cons_of_ne_nil hne
      obtain ⟨p, _, hp, -, rfl⟩ := List.forall₂_cons_left_iff.1 hps
      obtain ⟨-, c', hpos, hc', -⟩ := memberPosition_ok.1 hp
      simp only [servedRow, (Written.upsert_excluded hup).1, Option.bind_eq_some_iff] at hpos
      obtain ⟨id, -, hget⟩ := hpos
      cases targets_cursor (Table.mem_of_get hget)
      exact hc'
    refine ⟨(⟨t, ht⟩, [(stream, c)]), reserveStream_ok.2 ⟨t, c, [], hres, rfl, hc, rfl⟩, ?_⟩
    refine applyGroup_ok.2 ⟨hnames, targets t stream c deltas, written, ps, ?_, ?_, hdb, ?_, rfl⟩
    · rw [hwanted]
      exact batchCandidates_targets hall
    · rw [hsame hrecord, hpairs]
      exact hup
    · refine ((List.forall₂_and_left ..).2 ⟨hrow t written, hps⟩).imp fun d p h => ?_
      rw [h.1, hserved hrecord]
      exact h.2

/-! ## What a request names -/

theorem prepare_ok {deltas : List StreamDelta} {streams : List String} (h : prepare deltas = .ok streams) :
    (∀ d ∈ deltas, d.publish = true → streamName d.stream = .ok ()) ∧
      ∀ s, s ∈ streams ↔ ∃ d ∈ deltas, d.publish = true ∧ d.stream = s := by
  simp only [prepare, publishedStreams, bind_ok, pure_ok, mapM_checked] at h
  obtain ⟨-, -, -, -, _, ⟨hnames, rfl⟩, rfl⟩ := h
  refine ⟨fun d hd hpub => hnames d (List.mem_filter.2 ⟨hd, hpub⟩), fun s => ?_⟩
  simp [List.mem_filter, and_assoc]

theorem single_served {deltas : List StreamDelta} {streams : List String} {stream : String}
    (h : prepare deltas = .ok streams) (hs : Single streams deltas stream) :
    deltas ≠ [] ∧ streamName stream = .ok () ∧ ∀ d ∈ deltas, d.publish = true ∧ d.stream = stream := by
  obtain ⟨rfl, -, hpub⟩ := hs
  obtain ⟨hnames, hmem⟩ := prepare_ok h
  obtain ⟨d, hd, hdpub, hdstream⟩ := (hmem stream).1 List.mem_cons_self
  refine ⟨List.ne_nil_of_mem hd, hdstream ▸ hnames d hd hdpub, fun d hd => ⟨hpub d hd, ?_⟩⟩
  exact List.mem_singleton.1 ((hmem _).2 ⟨d, hd, hpub d hd, rfl⟩)

/-- One statement or several: the same database and the same positions, or neither. -/
theorem applyOne_eq_applyMany {deltas : List StreamDelta} {streams : List String} {stream : String}
    (h : prepare deltas = .ok streams) (hs : Single streams deltas stream) (db : Database) :
    (applyOne relation scope stream deltas db).toOption = (applyMany relation scope streams deltas db).toOption := by
  obtain ⟨hne, hname, hall⟩ := single_served h hs
  obtain ⟨rfl, hlen, -⟩ := hs
  refine Option.ext fun ⟨db', ps⟩ => ?_
  rw [toOption_eq_some, toOption_eq_some, applyOne_iff hne, applyMany_iff hne hlen hname hall]

/-! ## A transaction -/

/-- The position the scope holds on a Stream. -/
def Database.reserved (relation : Nat) (scope : String) (db : Database) (stream : String) : Option Nat :=
  db.1.publicationCursor.get ⟨relation, stream, scope⟩

/-- A new reservation. -/
theorem reserved_new {db db' : Database} {stream : String}
    (hnone : db.1.publicationCursor.get ⟨relation, stream, scope⟩ = none)
    (h : db'.1 = { db.1 with
      stream := db.1.stream.set stream (db.head stream + 1)
      publicationCursor := db.1.publicationCursor ++ [(⟨relation, stream, scope⟩, db.head stream + 1)] }) (s : String) :
    (db'.reserved relation scope s =
      if s = stream then some (db.head stream + 1) else db.reserved relation scope s) ∧
    db'.head s = if s = stream then db.head stream + 1 else db.head s := by
  by_cases hs : s = stream
  · subst hs
    simp [Database.reserved, Database.head, h, Table.get_append_singleton, hnone]
  · have hs' : stream ≠ s := fun e => hs e.symm
    simp [Database.reserved, Database.head, h, Table.get_append_singleton, Table.get_set, hs, hs']

/-- Every position held is the head, one above where it stood; a Stream without one stands where it stood. -/
def Carried (relation : Nat) (scope : String) (db₀ db : Database) : Prop :=
  ∀ s, match db.reserved relation scope s with
    | none => db.head s = db₀.head s
    | some c => c = db₀.head s + 1 ∧ db.head s = c

/-- What the rounds of reservations leave: the positions asked for, and those held before. -/
structure Reserving (relation : Nat) (scope : String) (db₀ db db' : Database) (cursors : Table String Nat) : Prop where
  carried : Carried relation scope db₀ db'
  held : ∀ s c, cursors.get s = some c → db'.reserved relation scope s = some c
  kept : ∀ s c, db.reserved relation scope s = some c → db'.reserved relation scope s = some c
  others : ∀ s, cursors.get s = none → db'.reserved relation scope s = db.reserved relation scope s
  record : db'.1.record = db.1.record
  pairs : db'.1.streamRecord = db.1.streamRecord

theorem reserveStream_step {db₀ db : Database} {acc acc' : Database × Table String Nat} {stream : String}
    (h : reserveStream relation scope acc stream = .ok acc') (hacc : Reserving relation scope db₀ db acc.1 acc.2) :
    Reserving relation scope db₀ db acc'.1 acc'.2 ∧ ∃ c, acc'.2 = acc.2.set stream c := by
  obtain ⟨t, c, rest, hres, rfl, -, hcursors⟩ := reserveStream_ok.1 h
  refine ⟨?_, c, hcursors⟩
  obtain ⟨c', hget, ht, hcs⟩ | ⟨hnone, -, ht, hcs⟩ | ⟨-, -, hcs⟩ := reservation_cases hres
  · -- the scope has a position already
    obtain ⟨rfl, -⟩ := List.cons.inj hcs
    have hdb : acc'.1 = acc.1 := Subtype.ext ht
    rw [hdb, hcursors]
    refine ⟨hacc.carried, fun s n hn => ?_, hacc.kept, fun s hn => ?_, hacc.record, hacc.pairs⟩
    · rw [Table.get_set] at hn
      split at hn
      · rename_i hs
        subst hs
        cases hn
        exact hget
      · exact hacc.held s n hn
    · rw [Table.get_set] at hn
      split at hn
      · cases hn
      · exact hacc.others s hn
  · -- the Stream moves on by one, and the scope holds where it stands
    obtain ⟨rfl, -⟩ := List.cons.inj hcs
    have hnew := reserved_new hnone ht
    have hstood : acc.1.head stream = db₀.head stream := by
      have := hacc.carried stream
      rwa [Database.reserved, hnone] at this
    refine ⟨fun s => ?_, fun s n hn => ?_, fun s n hn => ?_, fun s hn => ?_, ?_, ?_⟩
    · rw [(hnew s).1, (hnew s).2]
      by_cases hs : s = stream
      · subst hs
        simp [hstood]
      · simpa [hs] using hacc.carried s
    · rw [hcursors, Table.get_set] at hn
      rw [(hnew s).1]
      by_cases hs : stream = s
      · simpa [hs] using hn
      · rw [if_neg hs] at hn
        rw [if_neg (Ne.symm hs), hacc.held s n hn]
    · have hheld := hacc.kept s n hn
      rw [(hnew s).1, if_neg, hheld]
      rintro rfl
      rw [Database.reserved, hnone] at hheld
      cases hheld
    · rw [hcursors, Table.get_set] at hn
      by_cases hs : stream = s
      · simp [hs] at hn
      · rw [if_neg hs] at hn
        rw [(hnew s).1, if_neg (Ne.symm hs), hacc.others s hn]
    · rw [ht]
      exact hacc.record
    · rw [ht]
      exact hacc.pairs
  · cases hcs

/-- All Streams published to are given a position. -/
theorem reserveStreams {db₀ db : Database} {streams : List String} {acc acc' : Database × Table String Nat}
    (h : streams.foldlM (reserveStream relation scope) acc = .ok acc')
    (hacc : Reserving relation scope db₀ db acc.1 acc.2) :
    Reserving relation scope db₀ db acc'.1 acc'.2 ∧
      ∀ s, (acc'.2.get s).isSome ↔ (acc.2.get s).isSome ∨ s ∈ streams := by
  induction streams generalizing acc with
  | nil =>
    rw [List.foldlM_nil, pure_ok] at h
    exact ⟨h ▸ hacc, fun s => by simp [h]⟩
  | cons stream streams ih =>
    rw [List.foldlM_cons, bind_ok] at h
    obtain ⟨mid, hmid, h⟩ := h
    obtain ⟨hstep, c, hset⟩ := reserveStream_step hmid hacc
    obtain ⟨hend, hnames⟩ := ih h hstep
    refine ⟨hend, fun s => ?_⟩
    rw [hnames, hset, Table.get_set, List.mem_cons]
    by_cases hs : stream = s
    · simp [hs]
    · simp [hs, Ne.symm hs]

/-- An answer to a change. -/
def Names (d : StreamDelta) (p : Position) : Prop :=
  p.stream = d.stream ∧ p.model = d.model ∧ p.identityKey = d.identityKey

/-- What the groups leave: the pairs published stand at their Streams' positions, and nothing else is moved. -/
structure Applied (cursors : Table String Nat) (db db' : Database) (deltas : List StreamDelta) (ps : List Position) :
    Prop where
  stream : db'.1.stream = db.1.stream
  record : db'.1.record = db.1.record
  publicationCursor : db'.1.publicationCursor = db.1.publicationCursor
  pairs : ∀ k, db'.1.streamRecord.get k = db.1.streamRecord.get k ∨
    ∃ c, cursors.get k.1 = some c ∧ db'.1.streamRecord.get k = some (c, .upsert)
  stands : ∀ d ∈ deltas, d.publish = true → ∃ id c, recordOf db.1 d = some id ∧ cursors.get d.stream = some c ∧
    db'.1.streamRecord.get (d.stream, id) = some (c, .upsert)
  answered : List.Forall₂ (fun d p => Names d p ∧ (d.publish = true → cursors.get d.stream = some p.cursor)) deltas ps

theorem batchCandidates_mem {t : Tables} {cursors : Table String Nat} {group : List StreamDelta}
    {candidates : List ((String × Nat) × Nat × PositionKind)}
    (h : batchCandidates t (group.map fun d => (d, cursors.get d.stream)) = .ok candidates) (k : String × Nat)
    (v : Nat × PositionKind) :
    (k, v) ∈ candidates ↔ ∃ d ∈ group, d.publish = true ∧ recordOf t d = some k.2 ∧ d.stream = k.1 ∧
      cursors.get k.1 = some v.1 ∧ v.2 = .upsert := by
  rw [batchCandidates, mapM_ok] at h
  have hmem (d : StreamDelta) (cursor : Option Nat) (id : Nat) :
      ((d, cursor), id) ∈ (group.map fun d => (d, cursors.get d.stream)).filterMap (fun w =>
        if w.1.publish then (recordOf t w.1).map fun id => (w, id) else none) ↔
      d ∈ group ∧ cursor = cursors.get d.stream ∧ d.publish = true ∧ recordOf t d = some id := by
    simp only [List.filterMap_map, List.mem_filterMap, Function.comp_apply]
    constructor
    · rintro ⟨d', hd', hsome⟩
      split at hsome
      · rename_i hpub
        simp only [Option.map_eq_some_iff, Prod.mk.injEq] at hsome
        obtain ⟨_, hid, ⟨rfl, rfl⟩, rfl⟩ := hsome
        exact ⟨hd', rfl, hpub, hid⟩
      · cases hsome
    · rintro ⟨hd, rfl, hpub, hid⟩
      exact ⟨d, hd, by simp [hpub, hid]⟩
  constructor
  · intro hkv
    obtain ⟨⟨⟨d, cursor⟩, id⟩, he, hrow⟩ := forall₂_mem_right h hkv
    obtain ⟨hd, rfl, hpub, hid⟩ := (hmem ..).1 he
    cases hc : cursors.get d.stream with
    | none => simp [hc] at hrow
    | some c =>
      simp only [hc, Except.ok.injEq, Prod.mk.injEq] at hrow
      obtain ⟨rfl, rfl⟩ := hrow
      exact ⟨d, hd, hpub, hid, rfl, hc, rfl⟩
  · obtain ⟨s, id⟩ := k
    obtain ⟨c, kind⟩ := v
    rintro ⟨d, hd, hpub, hid, rfl, hc, rfl⟩
    obtain ⟨r, hr, hrow⟩ := forall₂_mem_left h ((hmem d (cursors.get d.stream) id).2 ⟨hd, rfl, hpub, hid⟩)
    simp only [hc, Except.ok.injEq] at hrow
    exact hrow ▸ hr

/-- One group. -/
theorem applyGroup_applied {cursors : Table String Nat} {acc acc' : Database × List Position} {group : List StreamDelta}
    (h : applyGroup cursors acc group = .ok acc') :
    ∃ ps, acc'.2 = acc.2 ++ ps ∧ Applied cursors acc.1 acc'.1 group ps := by
  obtain ⟨-, candidates, written, ps, hcand, hup, hdb, hps, hall⟩ := applyGroup_ok.1 h
  have hmem := batchCandidates_mem hcand
  obtain ⟨hret, htable, hnodup⟩ := Written.upsert_excluded hup
  refine ⟨ps, hall, ?_, ?_, ?_, fun k => ?_, fun d hd hpub => ?_, hps.imp fun d p hp => ?_⟩
  · rw [hdb]
  · rw [hdb]
  · rw [hdb]
  · rw [hdb, htable]
    refine (Table.get_setAll _ candidates k).imp_right ?_
    rintro ⟨⟨c, kind⟩, hin, hget⟩
    obtain ⟨_, -, -, -, -, hc, rfl⟩ := (hmem ..).1 hin
    exact ⟨c, hc, hget⟩
  · obtain ⟨p, -, hp⟩ := forall₂_mem_left hps hd
    obtain ⟨hrep, c, hpos, -, -⟩ := memberPosition_ok.1 hp
    obtain ⟨id, hid⟩ := Option.isSome_iff_exists.1 hrep
    simp only [batchRow, hid, hpub, if_true, Option.bind_some, hret] at hpos
    have hin := Table.mem_of_get hpos
    obtain ⟨_, -, -, -, -, hc, -⟩ := (hmem ..).1 hin
    refine ⟨id, c, hid, hc, ?_⟩
    rw [hdb, htable]
    exact Table.get_setAll_of_mem hnodup hin
  · obtain ⟨-, c, hpos, -, rfl⟩ := memberPosition_ok.1 hp
    refine ⟨⟨rfl, rfl, rfl⟩, fun hpub => ?_⟩
    simp only [batchRow, hpub, if_true, hret, Option.bind_eq_some_iff] at hpos
    obtain ⟨id, -, hget⟩ := hpos
    obtain ⟨_, -, -, -, -, hc, -⟩ := (hmem ..).1 (Table.mem_of_get hget)
    exact hc

theorem Applied.append {cursors : Table String Nat} {db db₁ db₂ : Database} {ds₁ ds₂ : List StreamDelta}
    {ps₁ ps₂ : List Position} (h₁ : Applied cursors db db₁ ds₁ ps₁) (h₂ : Applied cursors db₁ db₂ ds₂ ps₂) :
    Applied cursors db db₂ (ds₁ ++ ds₂) (ps₁ ++ ps₂) where
  stream := h₂.stream.trans h₁.stream
  record := h₂.record.trans h₁.record
  publicationCursor := h₂.publicationCursor.trans h₁.publicationCursor
  pairs := by
    intro k
    rcases h₂.pairs k with heq | hnew
    · rw [heq]
      exact h₁.pairs k
    · exact .inr hnew
  stands := by
    intro d hd hpub
    rcases List.mem_append.1 hd with hd | hd
    · -- a later group moves the pair to where it stands already
      obtain ⟨id, c, hid, hc, hget⟩ := h₁.stands d hd hpub
      refine ⟨id, c, hid, hc, ?_⟩
      rcases h₂.pairs (d.stream, id) with heq | ⟨c', hc', hget'⟩
      · rw [heq, hget]
      · rw [hc] at hc'
        cases hc'
        exact hget'
    · obtain ⟨id, c, hid, hc, hget⟩ := h₂.stands d hd hpub
      refine ⟨id, c, ?_, hc, hget⟩
      rw [← hid, recordOf, recordOf, h₁.record]
  answered := List.rel_append h₁.answered h₂.answered

theorem applyGroups {cursors : Table String Nat} {groups : List (List StreamDelta)}
    {acc acc' : Database × List Position} (h : groups.foldlM (applyGroup cursors) acc = .ok acc') :
    ∃ ps, acc'.2 = acc.2 ++ ps ∧ Applied cursors acc.1 acc'.1 groups.flatten ps := by
  induction groups generalizing acc with
  | nil =>
    rw [List.foldlM_nil, pure_ok] at h
    subst h
    exact ⟨[], (List.append_nil _).symm, rfl, rfl, rfl, fun _ => .inl rfl, fun _ hd => absurd hd List.not_mem_nil, .nil⟩
  | cons group groups ih =>
    rw [List.foldlM_cons, bind_ok] at h
    obtain ⟨mid, hmid, h⟩ := h
    obtain ⟨ps₁, heq₁, hfirst⟩ := applyGroup_applied hmid
    obtain ⟨ps₂, heq₂, hrest⟩ := ih h
    exact ⟨ps₁ ++ ps₂, by rw [heq₂, heq₁, List.append_assoc], hfirst.append hrest⟩

theorem batches_flatten {α : Type} (l : List α) : (batches l).flatten = l := by
  have hsome (n : Nat) : ((List.range n).map fun i => (l.drop (i * STREAM_BATCH)).take STREAM_BATCH).flatten =
      l.take (n * STREAM_BATCH) := by
    induction n with
    | zero => simp
    | succ n ih =>
      rw [List.range_succ, List.map_append, List.flatten_append, ih, Nat.succ_mul, List.take_add]
      simp
  rw [batches, hsome, List.take_of_length_le]
  unfold STREAM_BATCH
  omega

/-- What a transaction does to these tables within one scope: it publishes, by either branch that may serve the request,
and represents records. -/
inductive Work where
  | publish (deltas : List StreamDelta) (positions : List Position)
  | ensure (model identityKey : String)
deriving DecidableEq

inductive Step (relation : Nat) (scope : String) : Database → Work → Database → Prop
  | many {db db' : Database} {deltas : List StreamDelta} {streams : List String} {ps : List Position} :
      prepare deltas = .ok streams → applyMany relation scope streams deltas db = .ok (db', ps) →
      Step relation scope db (.publish deltas ps) db'
  | one {db db' : Database} {deltas : List StreamDelta} {streams : List String} {stream : String} {ps : List Position} :
      prepare deltas = .ok streams → Single streams deltas stream →
      applyOne relation scope stream deltas db = .ok (db', ps) → Step relation scope db (.publish deltas ps) db'
  | ensure {db db' : Database} {model identityKey : String} {id : Nat} :
      db'.1 = { db.1 with record := db.1.record ++ [((model, identityKey), id)] } →
      Step relation scope db (.ensure model identityKey) db'

/-- A change published by one of the calls so far. -/
def Published (os : List Work) (d : StreamDelta) : Prop :=
  d.publish = true ∧ ∃ deltas ps, .publish deltas ps ∈ os ∧ d ∈ deltas

/-- The host takes one of the two branches. -/
theorem applyStreamMembers_step {deltas : List StreamDelta} {db db' : Database} {ps : List Position}
    (h : applyStreamMembers relation scope deltas db = .ok (db', ps)) :
    Step relation scope db (.publish deltas ps) db' := by
  obtain ⟨streams, hprep, h⟩ := bind_ok.1 h
  split at h
  · split at h
    · rename_i hs
      exact .one hprep hs h
    · exact .many hprep h
  · exact .many hprep h

/-- One publication of the scope, by either branch. -/
theorem Step.applied {db db' : Database} {deltas : List StreamDelta} {ps : List Position}
    (h : Step relation scope db (.publish deltas ps) db') {db₀ : Database} (hdb : Carried relation scope db₀ db) :
    ∃ db₁ cursors, Reserving relation scope db₀ db db₁ cursors ∧ Applied cursors db₁ db' deltas ps ∧
      ∀ s, (cursors.get s).isSome ↔ ∃ d ∈ deltas, d.publish = true ∧ d.stream = s := by
  have hmany : ∃ streams, prepare deltas = .ok streams ∧ applyMany relation scope streams deltas db = .ok (db', ps) := by
    cases h with
    | many hprep h => exact ⟨_, hprep, h⟩
    | one hprep hs h =>
      refine ⟨_, hprep, toOption_eq_some.1 ?_⟩
      rw [← applyOne_eq_applyMany hprep hs]
      exact toOption_eq_some.2 h
  obtain ⟨streams, hprep, h⟩ := hmany
  obtain ⟨⟨db₁, cursors⟩, hres, h⟩ := bind_ok.1 h
  have hstart : Reserving relation scope db₀ db db [] :=
    ⟨hdb, fun _ _ hc => (nomatch hc), fun _ _ hc => hc, fun _ _ => rfl, rfl, rfl⟩
  obtain ⟨hreserving, hnames⟩ := reserveStreams hres hstart
  obtain ⟨ps', hps, happlied⟩ := applyGroups h
  rw [batches_flatten] at happlied
  refine ⟨db₁, cursors, hreserving, ?_, fun s => ?_⟩
  · have heq : ps = ps' := hps
    exact heq ▸ happlied
  · rw [hnames, (prepare_ok hprep).2]
    simp [Table.get]

/-- What holds of a scope within its transaction. -/
structure Standing (relation : Nat) (scope : String) (db₀ : Database) (os : List Work) (db : Database) : Prop where
  carried : Carried relation scope db₀ db
  reserved : ∀ s, (db.reserved relation scope s).isSome ↔ ∃ d, Published os d ∧ d.stream = s
  stands : ∀ d, Published os d → ∃ id c, recordOf db.1 d = some id ∧ db.reserved relation scope d.stream = some c ∧
    db.1.streamRecord.get (d.stream, id) = some (c, .upsert)
  answered : ∀ deltas ps, .publish deltas ps ∈ os → List.Forall₂ (fun d p => Names d p ∧
    (d.publish = true → db.reserved relation scope d.stream = some p.cursor)) deltas ps

theorem published_append {os : List Work} {o : Work} {d : StreamDelta} :
    Published (os ++ [o]) d ↔ Published os d ∨ d.publish = true ∧ ∃ deltas ps, o = .publish deltas ps ∧ d ∈ deltas := by
  simp only [Published, List.mem_append, List.mem_singleton]
  constructor
  · rintro ⟨hpub, deltas, ps, hin | rfl, hd⟩
    · exact .inl ⟨hpub, deltas, ps, hin, hd⟩
    · exact .inr ⟨hpub, deltas, ps, rfl, hd⟩
  · rintro (⟨hpub, deltas, ps, hin, hd⟩ | ⟨hpub, deltas, ps, rfl, hd⟩)
    · exact ⟨hpub, deltas, ps, .inl hin, hd⟩
    · exact ⟨hpub, deltas, ps, .inr rfl, hd⟩

theorem Standing.ensure {db₀ db db' : Database} {os : List Work} {model identityKey : String} {id : Nat}
    (hstand : Standing relation scope db₀ os db)
    (h : db'.1 = { db.1 with record := db.1.record ++ [((model, identityKey), id)] }) :
    Standing relation scope db₀ (os ++ [.ensure model identityKey]) db' := by
  have hreserved (s : String) : db'.reserved relation scope s = db.reserved relation scope s := by
    simp only [Database.reserved, h]
  have hhead (s : String) : db'.head s = db.head s := by simp only [Database.head, h]
  have hpublished (d : StreamDelta) : Published (os ++ [.ensure model identityKey]) d ↔ Published os d := by
    simp [published_append]
  constructor
  · intro s
    rw [hreserved, hhead]
    exact hstand.carried s
  · intro s
    simp only [hreserved, hpublished]
    exact hstand.reserved s
  · intro d hd
    obtain ⟨i, c, hi, hc, hget⟩ := hstand.stands d ((hpublished d).1 hd)
    refine ⟨i, c, ?_, ?_, ?_⟩
    · -- a key that is found is found first
      rw [recordOf] at hi
      simp [recordOf, h, Table.get_append_singleton, hi]
    · rw [hreserved]
      exact hc
    · rw [h]
      exact hget
  · intro deltas ps hin
    simp only [List.mem_append, List.mem_singleton, reduceCtorEq, or_false] at hin
    simp only [hreserved]
    exact hstand.answered deltas ps hin

theorem Standing.publish {db₀ db db' : Database} {os : List Work} {deltas : List StreamDelta} {ps : List Position}
    (hstand : Standing relation scope db₀ os db) (h : Step relation scope db (.publish deltas ps) db') :
    Standing relation scope db₀ (os ++ [.publish deltas ps]) db' := by
  obtain ⟨db₁, cursors, hres, happ, hnames⟩ := h.applied hstand.carried
  have hreserved (s : String) : db'.reserved relation scope s = db₁.reserved relation scope s := by
    simp only [Database.reserved, happ.publicationCursor]
  have hhead (s : String) : db'.head s = db₁.head s := by simp only [Database.head, happ.stream]
  have hrecord (d : StreamDelta) : recordOf db'.1 d = recordOf db.1 d := by
    simp only [recordOf, happ.record, hres.record]
  have hkept (s : String) (c : Nat) (hc : db.reserved relation scope s = some c) :
      db'.reserved relation scope s = some c := by
    rw [hreserved]
    exact hres.kept s c hc
  have hheld (s : String) (c : Nat) (hc : cursors.get s = some c) : db'.reserved relation scope s = some c := by
    rw [hreserved]
    exact hres.held s c hc
  have hpublished (d : StreamDelta) :
      Published (os ++ [.publish deltas ps]) d ↔ Published os d ∨ d.publish = true ∧ d ∈ deltas := by
    rw [published_append]
    refine or_congr_right (and_congr_right fun _ => ⟨?_, fun hd => ⟨deltas, ps, rfl, hd⟩⟩)
    rintro ⟨_, _, heq, hd⟩
    cases heq
    exact hd
  constructor
  · intro s
    rw [hreserved, hhead]
    exact hres.carried s
  · intro s
    simp only [hpublished]
    cases hc : cursors.get s with
    | some c =>
      obtain ⟨d, hd, hpub, hs⟩ := (hnames s).1 (by rw [hc]; rfl)
      rw [hheld s c hc]
      exact ⟨fun _ => ⟨d, .inr ⟨hpub, hd⟩, hs⟩, fun _ => rfl⟩
    | none =>
      have hnone : ¬ ∃ d ∈ deltas, d.publish = true ∧ d.stream = s := by
        rw [← hnames, hc]
        simp
      rw [hreserved, hres.others s hc, hstand.reserved]
      constructor
      · rintro ⟨d, hd, hs⟩
        exact ⟨d, .inl hd, hs⟩
      · rintro ⟨d, hd | ⟨hpub, hd⟩, hs⟩
        · exact ⟨d, hd, hs⟩
        · exact absurd ⟨d, hd, hpub, hs⟩ hnone
  · intro d hd
    rw [hrecord]
    rcases (hpublished d).1 hd with hd | ⟨hpub, hd⟩
    · obtain ⟨id, c, hid, hc, hget⟩ := hstand.stands d hd
      refine ⟨id, c, hid, hkept _ c hc, ?_⟩
      rcases happ.pairs (d.stream, id) with heq | ⟨c', hc', hget'⟩
      · rw [heq, hres.pairs, hget]
      · have hsame := (hkept _ c hc).symm.trans (hheld _ c' hc')
        cases hsame
        exact hget'
    · obtain ⟨id, c, hid, hc, hget⟩ := happ.stands d hd hpub
      refine ⟨id, c, ?_, hheld _ c hc, hget⟩
      rw [← hid, recordOf, recordOf, hres.record]
  · intro ds qs hin
    rcases List.mem_append.1 hin with hin | hin
    · exact (hstand.answered ds qs hin).imp fun d p hp => ⟨hp.1, fun hpub => hkept _ _ (hp.2 hpub)⟩
    · cases List.mem_singleton.1 hin
      exact happ.answered.imp fun d p hp => ⟨hp.1, fun hpub => hheld _ _ (hp.2 hpub)⟩

theorem Standing.of_trace {db₀ db : Database} {os : List Work} (h : Trace (Step relation scope) db₀ os db)
    (hfresh : ∀ s, db₀.reserved relation scope s = none) : Standing relation scope db₀ os db := by
  refine h.inv_labels (Standing relation scope db₀) (fun os db o db' hstand hstep => ?_) ?_
  · cases o with
    | publish deltas ps => exact hstand.publish hstep
    | ensure model identityKey =>
      cases hstep with
      | ensure hrecord => exact hstand.ensure hrecord
  · refine ⟨fun s => ?_, fun s => ?_, ?_, fun _ _ hin => (nomatch hin)⟩
    · rw [hfresh s]
    · simp [hfresh s, Published]
    · rintro d ⟨-, _, _, hin, -⟩
      cases hin

end Proofs

/-- A run of one Stream leaves the same rows and answers the same by one statement as by `V05_RESERVE_CURSOR` and
`V05_APPLY_MEMBERS_BATCH`, or neither is answered. Over the calls of a transaction within one scope, by either branch
each, the head of every Stream published to moves by one, and every pair published stands there. -/
theorem publication_paths (relation : Nat) (scope : String) :
    (∀ deltas streams stream db, prepare deltas = .ok streams → Single streams deltas stream →
      (applyOne relation scope stream deltas db).toOption = (applyMany relation scope streams deltas db).toOption) ∧
    ∀ db₀ os db, Trace (Step relation scope) db₀ os db → (∀ s, db₀.reserved relation scope s = none) →
      (∀ d, Published os d → db.head d.stream = db₀.head d.stream + 1 ∧
        ∃ id, recordOf db.1 d = some id ∧ db.1.streamRecord.get (d.stream, id) = some (db.head d.stream, .upsert)) ∧
      (∀ s, (¬ ∃ d, Published os d ∧ d.stream = s) → db.head s = db₀.head s) ∧
      ∀ deltas ps, .publish deltas ps ∈ os → List.Forall₂ (fun d p => Names d p ∧
        (d.publish = true → p.cursor = db.head d.stream)) deltas ps := by
  refine ⟨fun deltas streams stream db hprep hs => applyOne_eq_applyMany hprep hs db, ?_⟩
  intro db₀ os db hrun hfresh
  have hstand := Standing.of_trace hrun hfresh
  have hhead (s : String) (c : Nat) (hc : db.reserved relation scope s = some c) :
      c = db₀.head s + 1 ∧ db.head s = c := by
    have hcarried := hstand.carried s
    rwa [hc] at hcarried
  refine ⟨fun d hd => ?_, fun s hs => ?_, fun deltas ps hin => ?_⟩
  · obtain ⟨id, c, hid, hc, hget⟩ := hstand.stands d hd
    obtain ⟨hnext, hat⟩ := hhead _ c hc
    exact ⟨hat.trans hnext, id, hid, by rw [hat, hget]⟩
  · rw [← hstand.reserved, Option.not_isSome_iff_eq_none] at hs
    have hcarried := hstand.carried s
    rwa [hs] at hcarried
  · exact (hstand.answered deltas ps hin).imp fun d p hp => ⟨hp.1, fun hpub => (hhead _ _ (hp.2 hpub)).2.symm⟩

/-- Two notes, one of them held by a Stream. -/
def notesBefore : Database :=
  ⟨{ stream := [("a", 4)]
     record := [(("note", "1"), 1), (("note", "2"), 2)]
     streamRecord := [(("a", 1), (3, .upsert))]
     publicationCursor := [] }, by decide⟩

def notesBetween : Database :=
  ⟨{ stream := [("a", 5)]
     record := [(("note", "1"), 1), (("note", "2"), 2)]
     streamRecord := [(("a", 1), (5, .upsert))]
     publicationCursor := [(⟨7, "a", "call"⟩, 5)] }, by decide⟩

def notesAfter : Database :=
  ⟨{ stream := [("a", 5), ("b", 1)]
     record := [(("note", "1"), 1), (("note", "2"), 2)]
     streamRecord := [(("a", 1), (5, .upsert)), (("a", 2), (5, .upsert)), (("b", 1), (1, .upsert))]
     publicationCursor := [(⟨7, "a", "call"⟩, 5), (⟨7, "b", "call"⟩, 1)] }, by decide⟩

def firstNote : StreamDelta := ⟨"a", "note", "1", true⟩

def otherNotes : List StreamDelta := [⟨"a", "note", "2", true⟩, ⟨"b", "note", "1", true⟩]

theorem publication_paths_notes :
    (applyOne 7 "call" "a" [firstNote] notesBefore).toOption =
      (applyMany 7 "call" ["a"] [firstNote] notesBefore).toOption ∧
    notesAfter.head "a" = notesBefore.head "a" + 1 ∧ notesAfter.head "b" = notesBefore.head "b" + 1 := by
  have hone : applyStreamMembers 7 "call" [firstNote] notesBefore =
      .ok (notesBetween, [⟨"a", "note", "1", 5, .upsert⟩]) := ok_of_toOption (by decide +kernel)
  have hmany : applyStreamMembers 7 "call" otherNotes notesBetween =
      .ok (notesAfter, [⟨"a", "note", "2", 5, .upsert⟩, ⟨"b", "note", "1", 1, .upsert⟩]) :=
    ok_of_toOption (by decide +kernel)
  have hrun := (Trace.single (applyStreamMembers_step hone)).append (Trace.single (applyStreamMembers_step hmany))
  have hpaths := publication_paths 7 "call"
  have hheads := (hpaths.2 _ _ _ hrun fun _ => rfl).1
  exact ⟨hpaths.1 _ _ _ _ (ok_of_toOption (by decide +kernel)) (by decide),
    (hheads firstNote ⟨rfl, _, _, List.mem_cons_self, List.mem_cons_self⟩).1,
    (hheads ⟨"b", "note", "1", true⟩
      ⟨rfl, _, _, List.mem_cons_of_mem _ List.mem_cons_self, List.mem_cons_of_mem _ List.mem_cons_self⟩).1⟩

end Axton.Server.Postgres
