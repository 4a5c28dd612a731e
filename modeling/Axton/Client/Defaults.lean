import Axton.Client.Calls
import Axton.Protocol.Hops

/-!
# Created values and normal forms

A value is normalized when it is created, by the client from the arguments of a call with the defaults of `defaults.rs`
filled in, and then at every hop. `normalization_consistent`: a normal form is accepted again and stays, as it is and
through its text, and a default that the schema was accepted with is accepted where it is filled in.

Four things are not so, and `normalization_drifts` has one of each: a time that leaves the years 0 to 9999 in UTC, a
double that the reader of numbers takes for its neighbour, a default that a retained contract's enum does not have, and a
retained contract that names a field twice.
-/

namespace Axton

/-- What `Uuid::new_v4().hyphenated()` and `Utc::now().to_rfc3339_opts(Millis, true)` return: a UUID and a time in normal
form. -/
def CreateDefault.Fresh (P : Platform) : CreateDefault → Json → Prop
  | .literal _, _ => True
  | .uuid, v => ∃ s, v = .str s ∧ normalizeUuid s = .ok s
  | .now, v => scalar P .dateTime v = .ok v

/-- The type's values include `v`, as far as they are listed. -/
def Retains (enums : List EnumDescriptor) : ValueType → Json → Prop
  | .enum name, v => ∃ s, v = .str s ∧ ∃ e ∈ enums, e.name = name ∧ s ∈ e.values
  | _, _ => True

section
variable {P : Platform} {S : Schema} {f : FieldDescriptor} {d : CreateDefault} {fresh : String → Json}

theorem normalizeEnum_iff {enums : List EnumDescriptor} {name : String} {v : Json} :
    (∃ w, normalizeType P enums (.enum name) v = .ok w) ↔ Retains enums (.enum name) v := by
  cases v with
  | str s =>
    simp only [normalizeType, Json.asStr, Retains, Json.str.injEq, exists_eq_left']
    split
    · rename_i hin
      exact iff_of_true ⟨_, rfl⟩ (by simpa using hin)
    · rename_i hout
      refine iff_of_false ?_ fun hin => hout (by simpa using hin)
      rintro ⟨w, hw⟩
      cases hw
  | _ => simp [normalizeType, Json.asStr, Retains]

/-- A default that suits its field is a value of the field's type, whatever enums the type is read against. -/
theorem default_iff (h : S.validCreateDefault P f d = true) (hfresh : d.Fresh P (fresh f.name))
    (enums : List EnumDescriptor) {g : FieldDescriptor} (hg : g.valueType = f.valueType) :
    (∃ w, normalizeValue P enums g (materialize fresh f.name d) = .ok w) ↔
      Retains enums f.valueType (materialize fresh f.name d) := by
  cases d with
  | uuid =>
    obtain ⟨s, hs, huuid⟩ := hfresh
    simp only [Schema.validCreateDefault, Bool.or_eq_true, decide_eq_true_eq] at h
    rcases h with hty | hty <;>
      simp [materialize, hs, normalizeValue, Json.isNull, hg, hty, normalizeType, scalar, huuid, Retains, Except.map]
  | now =>
    simp only [Schema.validCreateDefault, decide_eq_true_eq] at h
    have hnow : scalar P .dateTime (fresh f.name) = .ok (fresh f.name) := hfresh
    have hnull : (fresh f.name).isNull = false := by
      cases hv : fresh f.name <;> simp_all [scalar, Json.isNull]
    simp [materialize, normalizeValue, hnull, hg, h, normalizeType, hnow, Retains]
  | literal v =>
    simp only [Schema.validCreateDefault, Bool.and_eq_true, Bool.not_eq_true'] at h
    obtain ⟨⟨hnull, hlist⟩, hok⟩ := h
    simp only [materialize, normalizeValue, hnull, hg, Bool.false_eq_true, if_false]
    cases hty : f.valueType with
    | scalar t =>
      rw [hty] at hok
      cases hv : normalizeType P S.enums (.scalar t) v with
      | error e => simp [hv, Except.isOk, Except.toBool] at hok
      | ok w => exact iff_of_true ⟨w, hv⟩ trivial
    | enum name => exact normalizeEnum_iff
    | list element => simp [hty] at hlist

/-- Against the schema's own enums it is one. -/
theorem default_accepted (h : S.validCreateDefault P f d = true) (hfresh : d.Fresh P (fresh f.name)) :
    ∃ w, normalizeValue P S.enums f (materialize fresh f.name d) = .ok w := by
  refine (default_iff h hfresh S.enums rfl).2 ?_
  cases hty : f.valueType with
  | enum name =>
    cases d with
    | literal v =>
      simp only [Schema.validCreateDefault, Bool.and_eq_true, hty] at h
      refine normalizeEnum_iff (P := P).1 ?_
      cases hv : normalizeType P S.enums (.enum name) v with
      | error e => simp [hv, Except.isOk, Except.toBool] at h
      | ok w => exact ⟨w, hv⟩
    | _ => simp [Schema.validCreateDefault, hty] at h
  | _ => trivial

end

/-- **Normal forms stay, and defaults are values.** What a normalizer returned it accepts again and returns, as it is when
the times of its input stay within the years 0 to 9999 of UTC, and printed and parsed when the reader also takes each of
its doubles for itself; a loader's state is a wire state; and the default of a field is accepted for the field, and for the
field of a retained contract with its type, if that type still lists it. -/
theorem normalization_consistent {P : Platform} (C : Chrono P) {number : Rat → String} {read : String → Option Num}
    {value : Rat → Rat} (R : Tokens number read value) (hint : IntegersRead value) {S : Schema}
    (hS : S.validate P = true) :
    (∀ name m, S.model name = .ok m → ∀ v w : Json, v.Held →
      (∀ e ∈ [(S.normalizeState P name, m.stateFields), (S.validateState P name, m.stateFields),
          (S.validatePatch P name, m.fields), (S.keyIdentity P name, m.fields)], e.1 v = .ok w →
        (FieldsKept C.year id e.2 v.fields → e.1 w = .ok w) ∧
        (FieldsKept C.year value e.2 v.fields →
          ∃ u, parseJson read (canonicalJson number w) = some u ∧ e.1 u = .ok w)) ∧
      (S.normalizeState P name v = .ok w → FieldsKept C.year id m.stateFields v.fields → S.validateState P name w = .ok w)) ∧
    (∀ a ∈ S.actions, (S.inputSchema a).Distinct → ∀ v w : Json, v.Held → normalizeActionArgs P S a v = .ok w →
      (ArgsKept C.year id (S.inputSchema a) a.inputs v → normalizeActionArgs P S a w = .ok w) ∧
      (ArgsKept C.year value (S.inputSchema a) a.inputs v →
        ∃ u, parseJson read (canonicalJson number w) = some u ∧ normalizeActionArgs P S a u = .ok w)) ∧
    ∀ m ∈ S.models, ∀ f ∈ m.fields, ∀ d, f.createDefault = some d → ∀ fresh, d.Fresh P (fresh f.name) →
      (∃ w, normalizeValue P S.enums f (materialize fresh f.name d) = .ok w) ∧
      ∀ enums g, g.valueType = f.valueType → ((∃ w, normalizeValue P enums g (materialize fresh f.name d) = .ok w) ↔
        Retains enums f.valueType (materialize fresh f.name d)) := by
  have both {f : Json → Except String Json} {w : Json} {kept : (Rat → Rat) → Prop} (h : Rereads f w kept) :
      (kept id → f w = .ok w) ∧
        (kept value → ∃ u, parseJson read (canonicalJson number w) = some u ∧ f u = .ok w) :=
    ⟨h.self_iff.2, (h.text_iff R hint).2⟩
  refine ⟨fun name m hm v w hv => ⟨?_, ?_⟩, fun a ha hinput v w hv h => both (actionArgs_rereads C hS ha hinput hv h),
    fun m hm f hf d hd fresh hfresh => ?_⟩
  · simp only [List.forall_mem_cons, List.not_mem_nil, false_implies, implies_true, and_true]
    exact ⟨fun h => both (state_rereads C hS hm hv h true), fun h => both (state_rereads C hS hm hv h false),
      fun h => both (validatePatch_rereads C hS hm hv h), fun h => both (keyIdentity_rereads C hS hm hv h)⟩
  · exact fun h => (state_rereads C hS hm hv h false).self_iff.2
  · have hvalid := (valid_model hS hm).field f hf
    simp only [Schema.validField, Bool.and_eq_true, hd] at hvalid
    exact ⟨default_accepted hvalid.2 hfresh, fun enums g hg => default_iff hvalid.2 hfresh enums hg⟩

/-! ## Where they are not -/

namespace Created

open YearLimit (platform chrono)

def color : FieldDescriptor where
  name := "color"
  valueType := .enum "Color"
  nullable := false
  createDefault := some (.literal (.str "blue"))

def note : ModelDescriptor where
  name := "Note"
  version := 1
  identity := ["id"]
  fields := [{ name := "id", valueType := .scalar .string, nullable := false, createDefault := some .uuid },
    { name := "at", valueType := .scalar .dateTime, nullable := false, createDefault := some .now }, color,
    { name := "score", valueType := .scalar .float, nullable := true }]

/-- The contract of a call that predates `blue`. -/
def before : ActionInputSnapshot where
  models := [note]
  enums := [⟨"Color", ["red"]⟩]

/-- A contract with two fields of one name. -/
def twice : ActionInputSnapshot where
  models := [{ note with fields := [{ name := "id", valueType := .scalar .string, nullable := false },
    { name := "tag", valueType := .enum "Tag", nullable := false },
    { name := "tag", valueType := .scalar .uuid, nullable := false }] }]
  enums := [⟨"Tag", ["6BA7B810-9DAD-11D1-80B4-00C04FD430C8"]⟩]

def add (version : Nat) (input : Option ActionInputSnapshot) : ActionDescriptor where
  name := "note.add"
  version := version
  inputs := [.model "note" "Note" .create .single none []]
  input := input

def schema : Schema where
  enums := [⟨"Color", ["red", "blue"]⟩]
  models := [note]
  actions := [add 1 (some before), add 2 (some twice), add 3 none]

def time : String := "2024-02-03T04:05:06.000Z"

def fresh (field : String) : Json := .str (if field = "at" then time else "6ba7b810-9dad-41d1-80b4-00c04fd430c8")

def state (time : String) (score : Rat) : Json :=
  .obj [("at", .str time), ("color", .str "red"), ("score", .num (.float score))]

/-- The arguments of a create that names no field but the score, filled in. -/
def filled (a : ActionDescriptor) : Json :=
  .obj (fillActionArgs schema (fun _ _ => fresh) a [("note", .obj [("score", .num (.float 2))])])

def created : Fields :=
  [("at", .str time), ("color", .str "blue"), ("id", .str "6ba7b810-9dad-41d1-80b4-00c04fd430c8"), ("score", .num (.float 2))]

def tagged (tag : String) : Json := .obj [("note", .obj [("id", .str "n"), ("tag", .str tag)])]

theorem schema_valid : schema.validate platform = true := by decide +kernel

theorem held_score : (Json.num (.float 2)).Held := ⟨2, 0, by decide, by decide, by decide, by norm_num⟩

theorem kept_time : TypeKept chrono.year id (.scalar .dateTime) (.str time) := by
  show (0 : Int) ≤ chrono.year _ ∧ chrono.year _ ≤ 9999
  decide

/-- The fields of an ordinary note stay, whichever of them there are. -/
theorem kept_note {object : Fields} (hat : ∀ v, object.get "at" = some v → v = .str time) :
    FieldsKept chrono.year id note.fields object := by
  intro f hf v hv
  rcases (by simpa [note] using hf : f = _ ∨ f = _ ∨ f = _ ∨ f = _) with rfl | rfl | rfl | rfl
  · cases v <;> trivial
  · rw [hat v hv]
    exact kept_time
  · trivial
  · cases v <;> trivial

end Created

open YearLimit (platform chrono) in
open Created in
/-- An ordinary state is accepted again, from its text too and as a wire state; so are the arguments of a call that the
defaults filled in, and the default color. -/
theorem normalization_consistent_note :
    schema.normalizeState platform "Note" (state time 2) = .ok (state time 2) ∧
      (∃ u, parseJson Exact.read (canonicalJson Exact.number (state time 2)) = some u ∧
        schema.normalizeState platform "Note" u = .ok (state time 2)) ∧
      schema.validateState platform "Note" (state time 2) = .ok (state time 2) ∧
      normalizeActionArgs platform schema (add 3 none) (filled (add 3 none)) = .ok (filled (add 3 none)) ∧
      ∃ w, normalizeValue platform schema.enums color (.str "blue") = .ok w := by
  obtain ⟨hrecords, hcalls, hdefaults⟩ := normalization_consistent chrono Exact.tokens integersRead_id schema_valid
  have hheld : (state time 2).Held := by
    refine Json.held_obj.2 ⟨by unfold Fields.Ordered; decide +kernel, fun e he => ?_⟩
    rcases (by simpa using he : e = _ ∨ e = _ ∨ e = _) with rfl | rfl | rfl
    · trivial
    · trivial
    · exact held_score
  have hnormal : schema.normalizeState platform "Note" (state time 2) = .ok (state time 2) := by decide +kernel
  have hkept : FieldsKept chrono.year id note.stateFields (state time 2).fields := by
    intro f hf
    refine kept_note (fun v hv => ?_) f (List.mem_of_mem_filter hf)
    cases hv
    rfl
  obtain ⟨hagain, hwire⟩ := hrecords "Note" note rfl _ _ hheld
  have hstate := hagain (schema.normalizeState platform "Note", note.stateFields) (by simp) hnormal
  have hfilled : filled (add 3 none) = .obj [("note", .obj created)] := by decide +kernel
  have hcall : (Json.obj [("note", .obj created)]).Held := by
    refine Json.held_obj.2 ⟨List.pairwise_singleton _ _, fun e he => ?_⟩
    cases List.mem_singleton.1 he
    refine Json.held_obj.2 ⟨by unfold Fields.Ordered; decide +kernel, fun e he => ?_⟩
    rcases (by simpa [created] using he : e = _ ∨ e = _ ∨ e = _ ∨ e = _) with rfl | rfl | rfl | rfl
    · trivial
    · trivial
    · trivial
    · exact held_score
  have hargs : ArgsKept chrono.year id (schema.inputSchema (add 3 none)) (add 3 none).inputs (.obj [("note", .obj created)]) := by
    intro i hi
    cases List.mem_singleton.1 hi
    intro m hm xs hxs x hx
    cases hm
    cases hxs
    cases List.mem_singleton.1 hx
    refine kept_note fun v hv => ?_
    cases hv
    rfl
  refine ⟨hnormal, hstate.2 hkept, hwire hnormal hkept, ?_, (hdefaults note (by simp [schema]) color (by simp [note]) _ rfl
    fresh trivial).1⟩
  rw [hfilled]
  exact (hcalls (add 3 none) (by simp [schema]) (valid_distinct schema_valid) _ _ hcall (by decide +kernel)).1 hargs

open YearLimit (platform) in
open Created in
/-- **Not every normal form stays, and not every default is a value.** A state in the last hour of the year 9999 is refused
the second time; a score is read from its text as its neighbour; the default `blue` is filled into a call whose contract
predates it, and refused; and a tag that a contract declares twice is returned as one of its two types refuses it. -/
theorem normalization_drifts : schema.validate platform = true ∧
    (∃ w, schema.normalizeState platform "Note" (state "9999-12-31T23:59:59-01:00" 2) = .ok w ∧
      schema.normalizeState platform "Note" w = .error "invalid zoned dateTime") ∧
    (∃ w u w', schema.normalizeState platform "Note" (state time Drift.score) = .ok w ∧
      parseJson Drift.read (canonicalJson Drift.number w) = some u ∧
      schema.normalizeState platform "Note" u = .ok w' ∧ w' ≠ w) ∧
    normalizeActionArgs platform schema (add 1 (some before)) (filled (add 1 (some before))) = .error "invalid enum value" ∧
    ∃ w, normalizeActionArgs platform schema (add 2 (some twice)) (tagged "6BA7B810-9DAD-11D1-80B4-00C04FD430C8") = .ok w ∧
      normalizeActionArgs platform schema (add 2 (some twice)) w = .error "invalid enum value" := by
  refine ⟨schema_valid, ⟨state "+10000-01-01T00:59:59.000Z" 2, by decide +kernel, by decide +kernel⟩, ?_, by decide +kernel,
    tagged "6ba7b810-9dad-11d1-80b4-00c04fd430c8", by decide +kernel, by decide +kernel⟩
  exact ⟨state time Drift.score, state time (6682135925997413 / 70368744177664),
    state time (6682135925997413 / 70368744177664), by decide +kernel, by decide +kernel, by decide +kernel, by decide +kernel⟩

end Axton
