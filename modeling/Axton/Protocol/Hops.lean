import Axton.Core.Operands
import Axton.Protocol.Keys

/-!
# Values at every hop

A call's arguments are normalized by the client when they are submitted, by the client again when the batch is rebuilt
from the text of its rows, and by the server when the batch arrives; a state by the loader, by the server and by the
store. `Steady` is what makes these agree: the normalizer takes what it returned for itself, as it is and printed and
parsed.

Two kinds of value are not steady. A zoned time next to the first or the last instant of the years 0 to 9999 can fall in
another year in UTC, and the text it gets there is refused by the normalizer that wrote it. And a double whose text the
reader of numbers takes for its neighbour drifts with each reading.
-/

namespace Axton

/-- `f` takes `w` for itself, as it is and from its canonical text. -/
def Steady (number : Rat → String) (read : String → Option Num) (f : Json → Except String Json)
    (w : Json) : Prop :=
  f w = .ok w ∧ ∃ u, parseJson read (canonicalJson number w) = some u ∧ f u = .ok w

section
variable {year : String → Int} {value : Rat → Rat}

/-- What stays when it is read back stays when it is not. -/
theorem TypeKept.held {ty : ValueType} {v : Json} (h : TypeKept year value ty v) : TypeKept year id ty v := by
  induction ty generalizing v with
  | scalar t =>
    cases t with
    | float => cases v <;> trivial
    | _ => cases v <;> exact h
  | enum name => trivial
  | list element ih =>
    cases v with
    | arr xs => exact fun x hx => ih (h x hx)
    | _ => trivial

theorem FieldsKept.held {fields : List FieldDescriptor} {object : Fields}
    (h : FieldsKept year value fields object) :
    FieldsKept year id fields object :=
  fun f hf v hv => (h f hf v hv).held

theorem OperandsKept.held {S : Schema} {i : ActionInput} {v : Json} (h : OperandsKept year value S i v) :
    OperandsKept year id S i v := by
  cases i with
  | value name ty nullable list => exact TypeKept.held h
  | model name model operation cardinality allowed bindings => exact fun m hm xs hxs x hx =>
    (h m hm xs hxs x hx).held

theorem ArgsKept.held {S : Schema} {inputs : List ActionInput} {args : Json}
    (h : ArgsKept year value S inputs args) :
    ArgsKept year id S inputs args :=
  fun i hi => (h i hi).held

theorem integersRead_id : IntegersRead id := fun _ _ => rfl

/-- What a normalizer does with `w`, which it returned: it sees its input through the normal form, and takes `w` back, as
`g` reads it, exactly when `kept g`. -/
structure Rereads (f : Json → Except String Json) (w : Json) (kept : (Rat → Rat) → Prop) : Prop where
  normal : ∀ v : Json, v.Keyed → f v.normal = f v
  tame : w.Tame
  again : ∀ g, IntegersRead g → (f (w.readAs g) = .ok w ↔ kept g)

variable {number : Rat → String} {read : String → Option Num} {f : Json → Except String Json} {w : Json}
  {kept : (Rat → Rat) → Prop}

/-- As it is. -/
theorem Rereads.self_iff (h : Rereads f w kept) : f w = .ok w ↔ kept id := by
  rw [← h.again id integersRead_id, Json.readAs_id, h.normal w h.tame.1]

/-- Printed and parsed. -/
theorem Rereads.text_iff (h : Rereads f w kept) (R : Tokens number read value) (hint : IntegersRead value) :
    (∃ u, parseJson read (canonicalJson number w) = some u ∧ f u = .ok w) ↔ kept value := by
  obtain ⟨u, hu, hnormal, hkeyed⟩ := parseJson_text R h.tame.2
  rw [← h.again value hint, ← hnormal, h.normal u hkeyed]
  constructor
  · rintro ⟨u', hu', hf⟩
    rw [hu, Option.some.injEq] at hu'
    rw [hu']
    exact hf
  · exact fun hf => ⟨u, hu, hf⟩

end

/-- The identity of the key that `record_key` returns. -/
def Schema.keyIdentity (P : Platform) (S : Schema) (name : String) (v : Json) : Except String Json :=
  (S.recordKey P name v).map (·.identity)

theorem keyIdentity_ok {P : Platform} {S : Schema} {name : String} {v w : Json} :
    S.keyIdentity P name v = .ok w ↔ S.recordKey P name v = .ok ⟨name, w⟩ := by
  rw [Schema.keyIdentity, map_ok]
  constructor
  · rintro ⟨key, hkey, rfl⟩
    obtain ⟨_, _, out, -, -, -, -, -, rfl⟩ := recordKey_ok.1 hkey
    exact hkey
  · exact fun h => ⟨_, h, rfl⟩

theorem valid_inputs {P : Platform} {S : Schema} (h : S.validate P = true) {a : ActionDescriptor}
    (ha : a ∈ S.actions) :
    (a.inputs.map (·.name)).Nodup := by
  have hvalid := (valid_schema h).action a ha
  simp only [Schema.validAction, Bool.and_eq_true, decide_eq_true_eq] at hvalid
  exact hvalid.1.1.1.2

section
variable {P : Platform} (C : Chrono P) {S : Schema} (hS : S.validate P = true) {name : String} {m : ModelDescriptor}
  (hm : S.model name = .ok m) {v w : Json} (hv : v.Held)
include hS hm hv

theorem state_rereads {loader : Bool} (h : S.state P name v loader = .ok w) (again : Bool) :
    Rereads (S.state P name · again) w (FieldsKept C.year · m.stateFields v.fields) := by
  obtain ⟨-, hn⟩ := valid_distinct hS m (mem_of_model hm).1
  exact ⟨fun u hu => state_normal hu again, state_tame hm hv hn h, fun g hg => state_again C hg hm hn hv h again⟩

theorem validatePatch_rereads (h : S.validatePatch P name v = .ok w) :
    Rereads (S.validatePatch P name) w (FieldsKept C.year · m.fields v.fields) := by
  obtain ⟨-, hn⟩ := valid_distinct hS m (mem_of_model hm).1
  exact ⟨fun u hu => validatePatch_normal hu, validatePatch_tame hm hv h, fun g hg => validatePatch_again C hg hm hn hv h⟩

theorem keyIdentity_rereads (h : S.keyIdentity P name v = .ok w) :
    Rereads (S.keyIdentity P name) w (FieldsKept C.year · m.fields v.fields) := by
  obtain ⟨hid, hn⟩ := valid_distinct hS m (mem_of_model hm).1
  have hkey := keyIdentity_ok.1 h
  refine ⟨fun u hu => ?_, recordKey_tame hm hv hid hkey, fun g hg => ?_⟩
  · rw [Schema.keyIdentity, recordKey_normal hu]
    rfl
  · rw [keyIdentity_ok]
    exact recordKey_again C hg hm hn hv hid hkey

end

theorem actionArgs_rereads {P : Platform} (C : Chrono P) {S : Schema} (hS : S.validate P = true) {a : ActionDescriptor}
    (ha : a ∈ S.actions) (hinput : (S.inputSchema a).Distinct) {v w : Json} (hv : v.Held)
    (h : normalizeActionArgs P S a v = .ok w) :
    Rereads (normalizeActionArgs P S a) w (ArgsKept C.year · (S.inputSchema a) a.inputs v) := by
  have hnames := valid_inputs hS ha
  exact ⟨fun u hu => normalizeActionArgs_normal hu, normalizeActionArgs_tame hinput hnames hv h,
    fun g hg => normalizeActionArgs_again hinput hnames hv h C hg⟩

namespace YearLimit

def platform : Platform where
  rereadNum := Num.reread
  dateTime := fun s =>
    if s = "2024-02-03T04:05:06.000Z" then some "2024-02-03T04:05:06.000Z"
    else if s = "9999-12-31T23:59:59-01:00" then some "+10000-01-01T00:59:59.000Z" else none
  canonicalJson := canonicalJson Exact.number

def chrono : Chrono platform where
  year := fun s => if s = "9999-12-31T23:59:59-01:00" then 10000 else 2024
  plain := by
    intro s t h hyear
    by_cases hs : s = "9999-12-31T23:59:59-01:00"
    · simp [hs] at hyear
    · simp only [platform, hs, if_false] at h
      split at h
      · cases h
        exact ⟨by decide, by decide, rfl⟩
      · cases h
  extended := by
    intro s t h hyear
    by_cases hs : s = "9999-12-31T23:59:59-01:00"
    · subst hs
      cases h
      decide
    · simp [hs] at hyear

def note : ModelDescriptor where
  name := "Note"
  version := 1
  identity := ["id"]
  fields := [{ name := "id", valueType := .scalar .string, nullable := false },
    { name := "at", valueType := .scalar .dateTime, nullable := false }]

def add : ActionDescriptor where
  name := "note.add"
  version := 1
  inputs := [.model "note" "Note" .create .single none []]

def schema : Schema where
  models := [note]
  actions := [add]

def state (time : String) : Json := .obj [("at", .str time)]
def call (time : String) : Json := .obj [("note", .obj [("at", .str time), ("id", .str "n")])]

end YearLimit

end Axton
