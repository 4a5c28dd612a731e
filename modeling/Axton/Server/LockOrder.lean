import Axton.Lib.Lexicographic
import Axton.Protocol.Keys
import Axton.Server.Publication

/-!
# The lock order of engine and host

A settlement locks its Streams and then guards its records. The engine orders the first as strings in a `BTreeSet`, by
bytes, and the second by the text `[model,identity]`; the PostgreSQL host refuses Streams that are not in code point order
and guards whose models and identity texts are not.

| here | there |
| --- | --- |
| `Postgres.byteOrder`                        | `byteOrder` (persistence.mts:55) |
| `Postgres.lockStreams`                      | the checks of `lockStreams` (persistence.mts:116) |
| `Postgres.guardRecords`                     | the checks of `guardRecords` (persistence.mts:319) |
| `identifier`                                | `ident` (parse.rs:69) |
| `Settlement.settleAll`                      | what `process_batch_group` (protocol_v05.rs:155) settles in its transaction |

The orders agree because a model name needs no escape and is closed by a quote, smaller than all of its characters, and
because the text of an object starts no other object's. They order what one settlement locks: a transaction that settles
twice locks what the second settlement names after all that the first has locked, in whatever order that is.
-/

namespace Axton

/-- The schema's names. -/
def identifier (s : String) : Bool :=
  (s.toList.head?.any fun c => c.isAlpha || c = '_') && s.toList.all fun c => c.isAlphanum || c = '_'

namespace Server

open Settlement Lexicographic

namespace Postgres

/-! ## The host's checks -/

/-- `[...s].map((c) => c.codePointAt(0))`. -/
def codePoints (s : String) : List Nat := s.toList.map Char.toNat

/-- The first difference, or that of the lengths. -/
def difference : List Nat → List Nat → Int
  | x :: xs, y :: ys => if x ≠ y then (x : Int) - y else difference xs ys
  | xs, ys => (xs.length : Int) - ys.length

def byteOrder (a b : String) : Int := difference (codePoints a) (codePoints b)

/-- What JavaScript's `trim` removes: it knows U+FEFF, and not U+0085. -/
def trimmed (c : Char) : Bool := c.toNat = 0xFEFF || (isWhiteSpace c && c.toNat ≠ 0x85)

def streamName (s : String) : Except String Unit := check (!s.toList.all trimmed) ("Invalid tracking stream " ++ quote s)

/-- Each neighbour with the next. -/
def neighbours {α : Type} (l : List α) : List (α × α) := l.zip l.tail

def lockStreams (streams : List String) : Except String Unit := do
  check (decide streams.Nodup) "lockStreams streams repeats an entry"
  check (!streams.isEmpty) "lockStreams needs at least one Stream"
  streams.forM streamName
  (neighbours streams).forM fun e => check (byteOrder e.1 e.2 < 0) "lockStreams needs canonical order"

def guardKey (r : GuardRecord) : Except String Unit := do
  check (r.model ≠ "") "record model must be a non-empty string"
  check (r.identityKey ≠ "") "record identityKey must be a non-empty string"

/-- Whether `record` may not follow `prior`. -/
def misplaced (prior record : GuardRecord) : Bool :=
  byteOrder prior.model record.model > 0 ||
    (prior.model = record.model && byteOrder prior.identityKey record.identityKey ≥ 0)

def guardRecords (records : List GuardRecord) : Except String Unit := do
  records.forM guardKey
  check (decide (records.map fun r => (r.model, r.identityKey)).Nodup) "guards repeats a key"
  (neighbours records).forM fun e => check (!misplaced e.1 e.2) "guards must be canonically ordered"

/-! ## Code point order -/

theorem difference_neg_iff (xs ys : List Nat) : difference xs ys < 0 ↔ xs < ys := by
  induction xs generalizing ys with
  | nil =>
    cases ys with
    | nil => simp [difference]
    | cons y ys => simp [difference]; omega
  | cons x xs ih =>
    cases ys with
    | nil => simp [difference]; omega
    | cons y ys =>
      rw [difference, List.cons_lt_cons_iff]
      split
      · rename_i hne
        simp [hne]
      · rename_i heq
        rw [ne_eq, not_not] at heq
        simp [heq, ih]

theorem codePoints_lt_iff (a b : String) : codePoints a < codePoints b ↔ a < b := by
  have hcode : Code fun c : Char => [c.toNat] :=
    ⟨fun _ _ h => separated_cons.2 (.inl h), fun _ => List.cons_ne_nil _ _⟩
  have hmap (s : String) : codePoints s = s.toList.flatMap fun c => [c.toNat] := by
    rw [codePoints, List.map_eq_flatMap]
  rw [hmap, hmap]
  exact hcode.flatMap_lt_iff ..

/-- The host's order is that of the strings. -/
theorem byteOrder_neg_iff (a b : String) : byteOrder a b < 0 ↔ a < b :=
  (difference_neg_iff ..).trans (codePoints_lt_iff a b)

theorem difference_swap (xs ys : List Nat) : difference ys xs = -difference xs ys := by
  induction xs generalizing ys with
  | nil => cases ys <;> simp [difference]
  | cons x xs ih =>
    cases ys with
    | nil => simp [difference]
    | cons y ys =>
      rw [difference, difference]
      by_cases h : x = y
      · simp [h, ih]
      · simp [h, Ne.symm h]

theorem byteOrder_pos_iff (a b : String) : byteOrder a b > 0 ↔ b < a := by
  rw [← byteOrder_neg_iff, byteOrder, byteOrder, difference_swap (codePoints a)]
  omega

/-- Neighbours of an ordered list are in order. -/
theorem neighbours_of_pairwise {α : Type} {R : α → α → Prop} {l : List α} (h : l.Pairwise R) :
    ∀ e ∈ neighbours l, R e.1 e.2 := by
  induction l with
  | nil => simp [neighbours]
  | cons x l ih =>
    cases l with
    | nil => simp [neighbours]
    | cons y l =>
      obtain ⟨hx, hl⟩ := List.pairwise_cons.1 h
      intro e he
      rcases List.mem_cons.1 he with rfl | he
      · exact hx y List.mem_cons_self
      · exact ih hl e he

/-- Streams in order are refused for a name only. -/
theorem lockStreams_iff {streams : List String} (hne : streams ≠ []) (hord : streams.Pairwise (· < ·)) :
    lockStreams streams = .ok () ↔ ∀ s ∈ streams, streamName s = .ok () := by
  have hnodup : streams.Nodup := hord.imp ne_of_lt
  have hchecked : (neighbours streams).forM (fun e => check (byteOrder e.1 e.2 < 0) "lockStreams needs canonical order") =
      .ok () := by
    simp only [List.forM_eq_forM, forM_ok, check_ok, decide_eq_true_eq, byteOrder_neg_iff]
    exact neighbours_of_pairwise hord
  simp [lockStreams, hnodup, hne, hchecked]

/-- The host's order of guards: by model, then by identity text. -/
def Before (a b : GuardRecord) : Prop :=
  byteOrder a.model b.model < 0 ∨ a.model = b.model ∧ byteOrder a.identityKey b.identityKey < 0

theorem before_iff {a b : GuardRecord} :
    Before a b ↔ a.model < b.model ∨ a.model = b.model ∧ a.identityKey < b.identityKey := by
  simp only [Before, byteOrder_neg_iff]

theorem not_misplaced {a b : GuardRecord} (h : Before a b) : misplaced a b = false := by
  obtain hm | ⟨hm, hi⟩ := before_iff.1 h
  · have hle : ¬ byteOrder a.model b.model > 0 := by
      rw [byteOrder_pos_iff]
      exact hm.not_gt
    simp [misplaced, hle, hm.ne]
  · have hle : ¬ byteOrder a.model b.model > 0 := by
      rw [byteOrder_pos_iff, hm]
      exact lt_irrefl _
    have hlt : byteOrder a.identityKey b.identityKey < 0 := (byteOrder_neg_iff ..).2 hi
    simp [misplaced, hle, hlt]

/-- What a guard locks. -/
def lockKey (r : GuardRecord) : String × String := (r.model, r.identityKey)

/-- Guards in order are refused for an empty text only. -/
theorem guardRecords_iff {records : List GuardRecord} (hord : records.Pairwise Before) :
    guardRecords records = .ok () ↔ ∀ r ∈ records, r.model ≠ "" ∧ r.identityKey ≠ "" := by
  have hnodup : (records.map fun r => (r.model, r.identityKey)).Nodup := by
    refine List.pairwise_map.2 (hord.imp fun h heq => ?_)
    rw [Prod.mk.injEq] at heq
    obtain hm | ⟨-, hi⟩ := before_iff.1 h
    · exact hm.ne heq.1
    · exact hi.ne heq.2
  have hchecked : (neighbours records).forM (fun e => check (!misplaced e.1 e.2) "guards must be canonically ordered") =
      .ok () := by
    simp only [List.forM_eq_forM, forM_ok, check_ok]
    intro e he
    rw [not_misplaced (neighbours_of_pairwise hord e he)]
    rfl
  simp [guardRecords, guardKey, hnodup, hchecked]

end Postgres

/-! ## The order of keys -/

theorem identifier_chars {s : String} (h : identifier s = true) {c : Char} (hc : c ∈ s.toList) :
    '"' < c ∧ escapeChar c = [c] := by
  simp only [identifier, Bool.and_eq_true, List.all_eq_true] at h
  have hk : (((decide (c.val ≥ 'A'.val ∧ c.val ≤ 'Z'.val) || decide (c.val ≥ 'a'.val) && decide (c.val ≤ 'z'.val)) ||
      decide (c.val ≥ '0'.val) && decide (c.val ≤ '9'.val)) || decide (c = '_')) = true := h.2 c hc
  have hcode : 48 ≤ c.toNat ∧ c.toNat ≠ 92 := by
    simp only [Bool.or_eq_true, Bool.and_eq_true, decide_eq_true_eq, ge_iff_le, UInt32.le_iff_toNat_le] at hk
    simp only [Char.toNat]
    obtain ((⟨h₁, h₂⟩ | ⟨h₁, h₂⟩) | ⟨h₁, h₂⟩) | rfl := hk
    · have hA : 'A'.val.toNat = 65 := rfl
      have hZ : 'Z'.val.toNat = 90 := rfl
      omega
    · have ha : 'a'.val.toNat = 97 := rfl
      omega
    · have h0 : '0'.val.toNat = 48 := rfl
      have h9 : '9'.val.toNat = 57 := rfl
      omega
    · decide
  have hquote : '"'.toNat < c.toNat := lt_of_lt_of_le (by decide) hcode.1
  have hne : c ≠ '"' ∧ c ≠ '\\' := by
    constructor <;> rintro rfl
    · exact lt_irrefl _ hquote
    · exact hcode.2 rfl
  refine ⟨hquote, ?_⟩
  rw [escapeChar, if_neg hne.1, if_neg hne.2, if_pos (by omega)]

/-- A model name stands in the text as it is. -/
theorem quote_identifier {s : String} (h : identifier s = true) : (quote s).toList = '"' :: (s.toList ++ ['"']) := by
  have hflat : s.toList.flatMap escapeChar = s.toList := by
    rw [List.flatMap_congr fun c hc => (identifier_chars h hc).2]
    exact List.flatMap_singleton' _
  rw [quote_toList, hflat]

/-- A key whose text the engine and the host order alike: a name of the schema, and an object of safe numbers. -/
structure Orderly (k : RecordKey) : Prop where
  name : identifier k.model = true
  identity : ∃ fields, k.identity = .obj fields
  safe : k.identity.Safe

section
variable {P : Platform} {number : Rat → String} (R : Rfc8785 number)
  (htext : P.canonicalJson = canonicalJson number)
include R htext

/-- **One order**: the engine's texts of keys compare as the host compares the keys. -/
theorem encoded_lt_iff {k k' : RecordKey} (h : Orderly k) (h' : Orderly k') : k.encoded P < k'.encoded P ↔
    k.model < k'.model ∨ k.model = k'.model ∧ P.canonicalJson k.identity < P.canonicalJson k'.identity := by
  obtain ⟨fs, hfs⟩ := h.identity
  obtain ⟨gs, hgs⟩ := h'.identity
  have hsafe := h.safe
  have hsafe' := h'.safe
  rw [hfs] at hsafe ⊢
  rw [hgs] at hsafe' ⊢
  have hheld (n : Num) (hn : n.Safe) : IsF64 n.asF64 := hn.held.isF64
  have hclosed := append_lt_append_iff (canonicalText_closed R hheld hsafe hsafe')
    (fun h => (canonicalText_closed R hheld hsafe' hsafe h).symm) [']']
  have hsentinel := append_sentinel_lt_iff (fun c hc => (identifier_chars h.name hc).1)
    (fun c hc => (identifier_chars h'.name hc).1) (',' :: (canonicalText number (.obj fs) ++ [']']))
    (',' :: (canonicalText number (.obj gs) ++ [']']))
  have hlist (k : RecordKey) (hk : identifier k.model = true) (es : Fields) (he : k.identity = .obj es) :
      (k.encoded P).toList = '[' :: '"' :: (k.model.toList ++ '"' :: ',' :: (canonicalText number (.obj es) ++ [']'])) := by
    unfold RecordKey.encoded
    simp [he, htext, canonicalJson, quote_identifier hk]
  rw [String.lt_iff_toList_lt, hlist k h.name fs hfs, hlist k' h'.name gs hgs]
  simp only [List.cons_lt_cons_iff, lt_irrefl, true_and, false_or, hsentinel, hclosed, htext, canonicalJson,
    String.lt_iff_toList_lt, String.toList_ofList, String.toList_inj]

end

/-! ## What a settlement locks -/

namespace Settlement

/-- The settlements of one transaction, one after another. -/
def settleAll (P : Platform) (parse : String → Option Json) (config : Config)
    (settlements : List (List RecordKey × List StreamIntent)) : Program Unit :=
  settlements.forM fun s => settleChanges P parse config (changes P s.1) s.2

/-- A settlement as the server makes it: of a valid schema whose names are identifiers, of keys that `resolve`
returned, and of numbers that were parsed. -/
structure Settling (number : Rat → String) (P : Platform) (config : Config) (changed : List RecordKey)
    (ds : List StreamIntent) : Prop where
  text : P.canonicalJson = canonicalJson number
  valid : config.schema.validate P = true
  names : ∀ m ∈ config.schema.models, identifier m.name = true
  changed : ∀ k ∈ changed, CanonicalKey P config.schema k
  held : ∀ d ∈ ds, ∀ fields, d.record.identity = .obj fields → ∀ e ∈ fields, ∀ n, e.2 = .num n → n.Held

section
variable {P : Platform} {parse : String → Option Json} {config : Config} {changed : List RecordKey}
  {ds : List StreamIntent} {i i' : Intents}

/-- The records are canonical keys, once each. -/
structure Kept (P : Platform) (config : Config) (i : Intents) : Prop where
  nodup : (i.records.map (·.1)).Nodup
  canonical : ∀ r ∈ i.records, CanonicalKey P config.schema r.2

theorem Kept.set (h : Kept P config i) {key : RecordKey} (hk : CanonicalKey P config.schema key)
    (hr : i'.records = i.records.set (key.encoded P) key) : Kept P config i' := by
  constructor
  · rw [hr]
    exact Table.nodup_set h.nodup _ _
  · intro r hmem
    rw [hr] at hmem
    obtain rfl | hmem := Table.mem_set hmem
    · exact hk
    · exact h.canonical r hmem

theorem resolve_canonical {r : RecordRef} {key : RecordKey} (h : resolve P config r = .ok key)
    (hheld : ∀ fields, r.identity = .obj fields → ∀ e ∈ fields, ∀ n, e.2 = .num n → n.Held) :
    CanonicalKey P config.schema key := by
  simp only [resolve, bind_ok] at h
  obtain ⟨_, -, h⟩ := h
  obtain ⟨m, input, out, -, hinput, -, -, -, hkey⟩ := recordKey_ok.1 h
  have hmodel : key.model = r.model := by rw [hkey]
  exact ⟨input, hheld input hinput, by rw [hmodel, ← hinput]; exact h⟩

theorem Kept.declare {d : StreamIntent} (h : Kept P config i) (hd : i.declare P config d = .ok i')
    (hheld : ∀ fields, d.record.identity = .obj fields → ∀ e ∈ fields, ∀ n, e.2 = .num n → n.Held) :
    Kept P config i' := by
  simp only [Intents.declare, bind_ok] at hd
  obtain ⟨_, -, key, hkey, hd⟩ := hd
  have hk := resolve_canonical hkey hheld
  cases d with
  | track stream r =>
    cases hd
    exact h.set hk rfl
  | invalidate streams r =>
    cases streams with
    | none =>
      cases hd
      exact h.set hk rfl
    | some streams =>
      cases streams with
      | nil =>
        cases hd
        exact h
      | cons s streams =>
        cases hd
        exact h.set hk rfl

theorem mem_changes {r : String × RecordKey} (h : r ∈ changes P changed) : r.2 ∈ changed := by
  suffices run : ∀ (ks : List RecordKey) (t : Table String RecordKey), r ∈ ks.foldl (fun t k => t.set (k.encoded P) k) t →
      r.2 ∈ ks ∨ r ∈ t from (run changed [] h).resolve_right List.not_mem_nil
  intro ks
  induction ks with
  | nil => exact fun t ht => .inr ht
  | cons k ks ih =>
    intro t ht
    obtain hin | hin := ih _ ht
    · exact .inl (List.mem_cons_of_mem _ hin)
    · obtain rfl | hin := Table.mem_set hin
      · exact .inl List.mem_cons_self
      · exact .inr hin

theorem kept_changes (hc : ∀ k ∈ changed, CanonicalKey P config.schema k) :
    Kept P config (.start (changes P changed)) :=
  ⟨changes_nodup P changed, fun _ hr => hc _ (mem_changes hr)⟩

theorem kept_intents {number : Rat → String} (S : Settling number P config changed ds)
    (h : intents P config (changes P changed) ds = .ok i) : Kept P config i := by
  simp only [intents, bind_ok] at h
  obtain ⟨_, -, h⟩ := h
  refine foldlM_rel (R := fun i i' => Kept P config i → Kept P config i') (fun _ h => h)
    (fun _ _ _ h₁ h₂ h => h₂ (h₁ h)) (fun d hd i i' hstep hi => hi.declare hstep (S.held d hd)) h (kept_changes S.changed)

theorem Settling.orderly {number : Rat → String} (S : Settling number P config changed ds) {k : RecordKey}
    (h : CanonicalKey P config.schema k) : Orderly k := by
  obtain ⟨m, out, hm, hid, -⟩ := h.identityOf S.valid
  obtain ⟨hmem, hname⟩ := mem_of_model hm
  exact ⟨hname ▸ S.names m hmem, ⟨out, hid⟩, h.safe S.valid⟩

/-- The Streams a settlement locks are in order. -/
theorem locked_ordered (i : Intents) (before : List TrackingPair) : (i.locked before).Pairwise (· < ·) := by
  have hle := List.pairwise_insertionSort (· ≤ ·) (i.named ++ before.map (·.stream)).dedup
  have hnodup := ((List.perm_insertionSort (· ≤ ·) (i.named ++ before.map (·.stream)).dedup).nodup_iff).2 (List.nodup_dedup _)
  exact (hle.and hnodup).imp fun h => lt_of_le_of_ne h.1 h.2

/-- The guards of a settlement are in order. -/
theorem guards_ordered {number : Rat → String} (R : Rfc8785 number)
    (S : Settling number P config changed ds) (h : intents P config (changes P changed) ds = .ok i) :
    (i.guards P).Pairwise Postgres.Before := by
  have K := kept_intents S h
  have D := declared_intents h
  have hperm := List.perm_insertionSort (fun a b : String × RecordKey => a.1 ≤ b.1) i.records
  have hle := List.pairwise_insertionSort (fun a b : String × RecordKey => a.1 ≤ b.1) i.records
  have hnodup : (i.records.insertionSort fun a b => a.1 ≤ b.1).Pairwise fun a b => a.1 ≠ b.1 :=
    List.pairwise_map.1 ((hperm.map Prod.fst).nodup_iff.2 K.nodup)
  refine List.pairwise_map.2 ((hle.and hnodup).imp_of_mem fun {a b} ha hb hab => ?_)
  have hlt : a.1 < b.1 := lt_of_le_of_ne hab.1 hab.2
  have htexts (r : String × RecordKey) (hr : r ∈ i.records.insertionSort fun a b => a.1 ≤ b.1) :
      r.2.encoded P = r.1 ∧ Orderly r.2 := by
    have hmem := hperm.subset hr
    exact ⟨D.texts _ _ (Table.get_of_mem K.nodup hmem), S.orderly (K.canonical r hmem)⟩
  rw [← (htexts a ha).1, ← (htexts b hb).1, encoded_lt_iff R S.text (htexts a ha).2 (htexts b hb).2] at hlt
  exact Postgres.before_iff.2 hlt

/-- The calls a settlement may make. -/
theorem issues_settle {op : Op} (h : Prog.Issues (settle P parse i) op) : (∃ records pairs, op = .readTracking records pairs) ∨
    (∃ before, i.locked before ≠ [] ∧ op = .lockStreams (i.locked before)) ∨ op = .guardRecords (i.guards P) ∨
    ∃ deltas, op = .applyStreamMembers deltas := by
  obtain h | ⟨before, h⟩ := Prog.issues_bind h
  · exact .inl ⟨_, _, Prog.issues_expect h⟩
  obtain h | ⟨_, h⟩ := Prog.issues_bind h
  · unfold lockStreams at h
    split at h
    · simp at h
    · rename_i hne
      exact .inr (.inl ⟨before, by simpa using hne, Prog.issues_expect h⟩)
  obtain h | ⟨_, h⟩ := Prog.issues_bind h
  · exact .inr (.inr (.inl (Prog.issues_expect h)))
  obtain ⟨_, -, h⟩ := Prog.issues_lift_bind h
  obtain h | ⟨_, h⟩ := Prog.issues_bind h
  · exact .inl ⟨_, _, Prog.issues_expect h⟩
  obtain ⟨live, -, h⟩ := Prog.issues_lift_bind h
  unfold apply at h
  split at h
  · simp at h
  · obtain h | ⟨_, h⟩ := Prog.issues_bind h
    · exact .inr (.inr (.inr ⟨_, Prog.issues_expect h⟩))
    · cases h

theorem issues_settleChanges {op : Op} (h : Prog.Issues (settleChanges P parse config (changes P changed) ds) op) :
    ∃ i, intents P config (changes P changed) ds = .ok i ∧ Prog.Issues (settle P parse i) op := by
  obtain ⟨i, hi, h⟩ := Prog.issues_lift_bind h
  split at h
  · simp at h
  · exact ⟨i, hi, h⟩

/-- The Streams a settlement locks, whatever its host answers. -/
theorem issues_lockStreams {streams : List String}
    (h : Prog.Issues (settleChanges P parse config (changes P changed) ds) (.lockStreams streams)) :
    streams ≠ [] ∧ streams.Pairwise (· < ·) := by
  obtain ⟨i, -, h⟩ := issues_settleChanges h
  obtain ⟨_, _, h⟩ | ⟨before, hne, h⟩ | h | ⟨_, h⟩ := issues_settle h
  · cases h
  · cases h
    exact ⟨hne, locked_ordered i before⟩
  · cases h
  · cases h

/-- The records a settlement guards, whatever its host answers. -/
theorem issues_guardRecords {number : Rat → String} (R : Rfc8785 number)
    (S : Settling number P config changed ds) {records : List GuardRecord}
    (h : Prog.Issues (settleChanges P parse config (changes P changed) ds) (.guardRecords records)) :
    records.Pairwise Postgres.Before ∧ ∀ r ∈ records, r.model ≠ "" ∧ r.identityKey ≠ "" := by
  obtain ⟨i, hi, h⟩ := issues_settleChanges h
  obtain ⟨_, _, h⟩ | ⟨before, hne, h⟩ | h | ⟨_, h⟩ := issues_settle h
  · cases h
  · cases h
  · cases h
    refine ⟨guards_ordered R S hi, fun r hr => ?_⟩
    obtain ⟨e, he, rfl⟩ := List.mem_map.1 hr
    have hk := S.orderly ((kept_intents S hi).canonical e ((List.perm_insertionSort _ _).subset he))
    obtain ⟨fs, hfs⟩ := hk.identity
    constructor
    · intro hempty
      have hname := hk.name
      rw [show e.2.model = "" from hempty] at hname
      revert hname
      decide
    · intro hempty
      have htext := congrArg String.toList (show P.canonicalJson e.2.identity = "" from hempty)
      simp [hfs, S.text, canonicalJson, canonicalText] at htext
  · cases h

end

/-- The calls of a run are among those the program may make. -/
theorem issues_of_runs {α : Type} {p : Program α} {w w' : World} {r : Except String α} (h : Prog.Runs Hosted p w r w') :
    ∀ c ∈ w'.calls, c ∈ w.calls ∨ Prog.Issues p c.1 := by
  induction h with
  | done => exact fun c hc => .inl hc
  | call hx _ ih =>
    intro c hc
    obtain hin | hin := ih c hc
    · rw [hx.1, List.mem_append, List.mem_singleton] at hin
      obtain hin | rfl := hin
      · exact .inl hin
      · exact .inr .here
    · exact .inr (.later _ hin)

/-- What the engine orders and what the host checks, over two settlements and whatever their hosts answer. -/
theorem canonical_lock_order {number : Rat → String} (R : Rfc8785 number)
    {P : Platform} {parse : String → Option Json} {config config' : Config} {changed changed' : List RecordKey}
    {ds ds' : List StreamIntent} (S : Settling number P config changed ds) (S' : Settling number P config' changed' ds') :
    (∀ s t, utf8 s < utf8 t ↔ Postgres.byteOrder s t < 0) ∧
    (∀ k k', Orderly k → Orderly k' → (utf8 (k.encoded P) < utf8 (k'.encoded P) ↔
      Postgres.byteOrder k.model k'.model < 0 ∨
        k.model = k'.model ∧ Postgres.byteOrder (P.canonicalJson k.identity) (P.canonicalJson k'.identity) < 0)) ∧
    (∀ streams, Prog.Issues (settleChanges P parse config (changes P changed) ds) (.lockStreams streams) →
      streams.Pairwise (Postgres.byteOrder · · < 0) ∧
      (Postgres.lockStreams streams = .ok () ↔ ∀ s ∈ streams, Postgres.streamName s = .ok ()) ∧
      ∀ streams', Prog.Issues (settleChanges P parse config' (changes P changed') ds') (.lockStreams streams') →
        ∀ s t, [s, t].Sublist streams → s ∈ streams' → t ∈ streams' → [s, t].Sublist streams') ∧
    ∀ records, Prog.Issues (settleChanges P parse config (changes P changed) ds) (.guardRecords records) →
      records.Pairwise Postgres.Before ∧ Postgres.guardRecords records = .ok () ∧
      ∀ records', Prog.Issues (settleChanges P parse config' (changes P changed') ds') (.guardRecords records') →
        ∀ a b, [a, b].Sublist (records.map Postgres.lockKey) → a ∈ records'.map Postgres.lockKey →
          b ∈ records'.map Postgres.lockKey → [a, b].Sublist (records'.map Postgres.lockKey) := by
  refine ⟨fun s t => (utf8_lt_iff s t).trans (Postgres.byteOrder_neg_iff s t).symm, fun k k' h h' => ?_,
    fun streams h => ?_, fun records h => ?_⟩
  · rw [utf8_lt_iff, encoded_lt_iff R S.text h h', Postgres.byteOrder_neg_iff, Postgres.byteOrder_neg_iff]
  · obtain ⟨hne, hord⟩ := issues_lockStreams h
    refine ⟨hord.imp (Postgres.byteOrder_neg_iff ..).2, Postgres.lockStreams_iff hne hord, fun streams' h' s t hst hs ht => ?_⟩
    exact sublist_pair (fun _ _ hxy hyx => lt_asymm hxy hyx) hord (issues_lockStreams h').2 hst hs ht
  · obtain ⟨hord, hnonempty⟩ := issues_guardRecords R S h
    refine ⟨hord, (Postgres.guardRecords_iff hord).2 hnonempty, fun records' h' a b hab ha hb => ?_⟩
    have hkeys {rs : List GuardRecord} (hrs : rs.Pairwise Postgres.Before) :
        (rs.map Postgres.lockKey).Pairwise fun a b => toLex a < toLex b :=
      List.pairwise_map.2 (hrs.imp fun hab => Prod.Lex.toLex_lt_toLex.2 (Postgres.before_iff.1 hab))
    exact sublist_pair (fun _ _ hxy hyx => lt_asymm hxy hyx) (hkeys hord) (hkeys (issues_guardRecords R S' h').1) hab ha hb

end Settlement

end Server

open Server Settlement Lexicographic

namespace Notes

/-- The platform with the texts of RFC 8785. -/
def exact : Platform := { platform with canonicalJson := canonicalJson Exact.number }

/-- The Streams locked over the calls of a host, in the order of the calls. -/
def lockedStreams (calls : List (Settlement.Op × List TrackingPair)) : List String :=
  calls.flatMap fun c => match c.1 with
    | .lockStreams streams => streams
    | _ => []

end Notes

open Notes

theorem canonical_lock_order_notes :
    utf8 ((⟨"note", noteId "é"⟩ : RecordKey).encoded exact) < utf8 ((⟨"notebook", noteId "a"⟩ : RecordKey).encoded exact) ∧
    Prog.Issues (settleChanges exact parseId publishing (changes exact [⟨"note", noteId "a"⟩]) [.track "s2" (noteRef "b")])
      (.lockStreams ["s1", "s2"]) ∧ Postgres.lockStreams ["s1", "s2"] = .ok () := by
  have hheld (id : String) : ∀ e ∈ [("id", Json.str id)], ∀ n, e.2 = .num n → n.Held := by simp
  have S : Settling Exact.number exact publishing [⟨"note", noteId "a"⟩] [.track "s2" (noteRef "b")] := by
    refine ⟨rfl, by decide +kernel, by decide +kernel, fun k hk => ?_, fun d hd fields hf => ?_⟩
    · obtain rfl := List.mem_singleton.1 hk
      exact ⟨[("id", .str "a")], hheld "a", ok_of_toOption (by decide +kernel)⟩
    · obtain rfl := List.mem_singleton.1 hd
      cases hf
      exact hheld "b"
  have hkey (model id : String) (h : identifier model = true) : Orderly ⟨model, noteId id⟩ :=
    ⟨h, ⟨_, rfl⟩, by simp [noteId, Json.Safe, Json.SafeEntries]⟩
  have hlocks : Prog.Issues (settleChanges exact parseId publishing (changes exact [⟨"note", noteId "a"⟩])
      [.track "s2" (noteRef "b")]) (.lockStreams ["s1", "s2"]) := by
    have heval : (((settleChanges exact parseId publishing (changes exact [⟨"note", noteId "a"⟩])
        [.track "s2" (noteRef "b")]).eval settling ⟨tracked, []⟩).map fun e => (e.2.calls.map (·.1)).contains
          (.lockStreams ["s1", "s2"])) = some true := by decide +kernel
    obtain ⟨⟨_, w⟩, hw, hcalls⟩ := Option.map_eq_some_iff.1 heval
    obtain ⟨c, hc, hop⟩ := List.mem_map.1 (List.contains_iff_mem.1 hcalls)
    have hissued := (issues_of_runs ((Prog.runs_of_eval hw).mono settling_hosted) c hc).resolve_left List.not_mem_nil
    rwa [hop] at hissued
  obtain ⟨-, horder, hstreams, -⟩ := @canonical_lock_order _ Exact.rfc8785 exact parseId _ _ _ _ _ _ S S
  refine ⟨(horder _ _ (hkey "note" "é" (by decide)) (hkey "notebook" "a" (by decide))).2 (.inl (by decide)), hlocks, ?_⟩
  exact (hstreams _ hlocks).2.1.2 (by decide)

/-- A transaction that settles twice locks `s2` and then `s1`, another one settles both at once, `s1` first. -/
theorem settlements_cross : ∃ w w' : World,
    Prog.Runs Hosted (settleAll platform parseId publishing [([], [.track "s2" (noteRef "b")]), ([], [.track "s1" (noteRef "b")])])
      ⟨tracked, []⟩ (.ok ()) w ∧
    Prog.Runs Hosted (settleAll platform parseId publishing [([], [.track "s2" (noteRef "b"), .track "s1" (noteRef "b")])])
      ⟨tracked, []⟩ (.ok ()) w' ∧
    lockedStreams w.calls = ["s2", "s1"] ∧ lockedStreams w'.calls = ["s1", "s2"] ∧
    ["s2", "s1"].Sublist (lockedStreams w.calls) ∧ ¬ ["s2", "s1"].Sublist (lockedStreams w'.calls) := by
  have hrun (settlements : List (List RecordKey × List StreamIntent)) {locked : List String}
      (h : ((settleAll platform parseId publishing settlements).eval settling ⟨tracked, []⟩).map
        (fun e => lockedStreams e.2.calls) = some locked) :
      ∃ w, Prog.Runs Hosted (settleAll platform parseId publishing settlements) ⟨tracked, []⟩ (.ok ()) w ∧
        lockedStreams w.calls = locked := by
    obtain ⟨⟨_, w⟩, hw, hcalls⟩ := Option.map_eq_some_iff.1 h
    exact ⟨w, (Prog.runs_of_eval hw).mono settling_hosted, hcalls⟩
  obtain ⟨w, hw, hlocked⟩ := hrun [([], [.track "s2" (noteRef "b")]), ([], [.track "s1" (noteRef "b")])]
    (show _ = some ["s2", "s1"] by decide +kernel)
  obtain ⟨w', hw', hlocked'⟩ := hrun [([], [.track "s2" (noteRef "b"), .track "s1" (noteRef "b")])]
    (show _ = some ["s1", "s2"] by decide +kernel)
  refine ⟨w, w', hw, hw', hlocked, hlocked', ?_, ?_⟩
  · rw [hlocked]
  · rw [hlocked']
    decide

end Axton
