import Axton.Core.Normalized
import Axton.Core.Widening

/-!
# Read contracts

Model of the retained reads of `crates/core/src/actions.rs`: a published version of a model is a
descriptor of its own (`ModelReadDescriptor`), read by a schema that holds nothing else
(`read_schema`). What such a schema accepts depends on the identity names, on the name, type and
nullability of every field, and on the values of the enums those types mention (`ReadsAs`).
-/

namespace Axton

/-- `read_field_fallback` (actions.rs:956). -/
def readFieldFallback (f : FieldDescriptor) : Option Json := if f.nullable then some .null else f.default

/-- Add what `fallback` gives for a field that is absent. -/
def fillField (fallback : FieldDescriptor → Option Json) (state : Fields) (f : FieldDescriptor) : Fields :=
  if Fields.contains state f.name then state
  else match fallback f with
    | some v => Fields.insert state f.name v
    | none => state

namespace Schema

/-- The contract of a version: retained, or that of the current model (actions.rs:1035). -/
def readDescriptor (S : Schema) (model : String) (version : Nat) : Except String ModelReadDescriptor :=
  match S.resultModel model version with
  | .ok d => .ok d
  | .error _ =>
    match S.models.find? fun m => m.name = model && m.version = version with
    | some m => .ok { name := m.name, version, identity := m.identity, fields := m.fields, enums := S.enums }
    | none => .error ("unsupported read Model " ++ model ++ " v" ++ toString version)

/-- Fill the fields that the producer did not carry (actions.rs:1066). -/
def fillFallbacks (d : ModelReadDescriptor) (state : Fields) : Fields :=
  d.model.stateFields.foldl (fillField readFieldFallback) state

/-- `normalize_read_snapshot` (actions.rs:1026). -/
def normalizeReadSnapshot (P : Platform) (S : Schema) (model : String) (version : Nat) (value : Json) :
    Except String Json := do
  if value.isNull then return .null
  else
    let descriptor ← S.readDescriptor model version
    let contract := readSchema S descriptor
    let some object := value.asObject | .error "read snapshot must be object or null"
    let key ← contract.recordKey P model (.obj (Fields.pick object descriptor.identity))
    let state := fillFallbacks descriptor (object.filter fun e => !descriptor.identity.contains e.1)
    let state ← contract.validateState P model (.obj state)
    return .obj (Fields.extend key.identity.fields state.fields)

end Schema

/-! ## Objects with added and dropped entries -/

theorem Fields.get_filter (fs : Fields) (p : String → Bool) (name : String) :
    Fields.get (fs.filter fun e => p e.1) name = if p name then Fields.get fs name else none := by
  induction fs with
  | nil => simp [Fields.get]
  | cons e fs ih =>
    obtain ⟨k, v⟩ := e
    by_cases hp : p k
    · by_cases hk : k = name
      · subst hk
        simp [Fields.get, hp]
      · simp [Fields.get, hp, hk, ih]
    · by_cases hk : k = name
      · subst hk
        simp [hp, ih]
      · simp [Fields.get, hp, hk, ih]

theorem get_fillField (fallback : FieldDescriptor → Option Json) (state : Fields) (f : FieldDescriptor) (name : String) :
    Fields.get (fillField fallback state f) name =
      (Fields.get state name).or (if f.name = name then fallback f else none) := by
  unfold fillField
  by_cases hc : Fields.contains state f.name
  · rw [if_pos hc]
    by_cases hname : f.name = name
    · obtain ⟨v, hv⟩ := Option.isSome_iff_exists.1 hc
      simp [← hname, hv]
    · simp [hname]
  · have hnone : Fields.get state f.name = none := by simpa [Fields.contains] using hc
    rw [if_neg hc]
    cases fallback f with
    | none => simp
    | some w =>
      show Fields.get (Fields.insert state f.name w) name = _
      rw [Fields.get_insert]
      by_cases hname : f.name = name
      · subst hname
        simp [hnone]
      · simp [hname]

theorem get_fillFields (fallback : FieldDescriptor → Option Json) {fields : List FieldDescriptor}
    (hn : (fields.map (·.name)).Nodup) (state : Fields) (name : String) :
    Fields.get (fields.foldl (fillField fallback) state) name =
      (Fields.get state name).or ((fields.find? (·.name = name)).bind fallback) := by
  induction fields generalizing state with
  | nil => simp
  | cons f fields ih =>
    rw [List.map_cons, List.nodup_cons] at hn
    rw [List.foldl_cons, ih hn.2, get_fillField, Option.or_assoc]
    by_cases hname : f.name = name
    · have hother : fields.find? (·.name = name) = none := by
        rw [List.find?_eq_none]
        intro g hg
        have hne : g.name ≠ name := fun hg' => hn.1 (List.mem_map.2 ⟨g, hg, hg'.trans hname.symm⟩)
        simpa using hne
      simp [hname, hother]
    · simp [hname]

theorem mem_fillFields {fallback : FieldDescriptor → Option Json} {fields : List FieldDescriptor} {state : Fields}
    {e : String × Json} (h : e ∈ fields.foldl (fillField fallback) state) :
    e ∈ state ∨ ∃ f ∈ fields, f.name = e.1 := by
  induction fields generalizing state with
  | nil => exact .inl h
  | cons f fields ih =>
    rcases ih h with h | ⟨g, hg, hname⟩
    · unfold fillField at h
      split at h
      · exact .inl h
      · split at h
        · rcases Fields.mem_insert h with rfl | h
          · exact .inr ⟨f, by simp, rfl⟩
          · exact .inl h
        · exact .inl h
    · exact .inr ⟨g, by simp [hg], hname⟩

/-! ## What reading depends on -/

/-- The enums a type mentions (materialization.rs:17). -/
def ValueType.enums : ValueType → List String
  | .scalar _ => []
  | .enum name => [name]
  | .list element => element.enums

def EnumValue (enums : List EnumDescriptor) (name s : String) : Prop := ∃ e ∈ enums, e.name = name ∧ s ∈ e.values

theorem normalizeType_congr {P : Platform} {E E' : List EnumDescriptor} {ty : ValueType}
    (h : ∀ n ∈ ty.enums, ∀ s, EnumValue E n s ↔ EnumValue E' n s) (v : Json) :
    normalizeType P E ty v = normalizeType P E' ty v := by
  induction ty generalizing v with
  | scalar name => rfl
  | enum name =>
    have hany (s : String) : (E.any fun e => e.name = name && e.values.contains s) =
        E'.any fun e => e.name = name && e.values.contains s := by
      have hs := h name (by simp [ValueType.enums]) s
      simp only [EnumValue] at hs
      rw [Bool.eq_iff_iff]
      simpa [and_assoc] using hs
    simp only [normalizeType, hany]
  | list element ih =>
    have hrest : ∀ n ∈ element.enums, ∀ s, EnumValue E n s ↔ EnumValue E' n s := h
    have hsame : normalizeType P E element = normalizeType P E' element := funext (ih hrest)
    simp only [normalizeType, hsame]

/-- `f'` reads under the enums `E'` as `f` does under `E`. -/
structure ReadsAs (E E' : List EnumDescriptor) (f f' : FieldDescriptor) : Prop where
  name : f'.name = f.name
  valueType : f'.valueType = f.valueType
  nullable : f'.nullable = f.nullable
  enums : ∀ n ∈ f.valueType.enums, ∀ s, EnumValue E n s ↔ EnumValue E' n s

section
variable {P : Platform} {S S' : Schema} {f f' : FieldDescriptor} (R : ReadsAs S.enums S'.enums f f')
include R

theorem ReadsAs.symm : ReadsAs S'.enums S.enums f' f :=
  ⟨R.name.symm, R.valueType.symm, R.nullable.symm, fun n hn s => (R.enums n (R.valueType ▸ hn) s).symm⟩

theorem normalizeValue_congr (v : Json) : normalizeValue P S.enums f v = normalizeValue P S'.enums f' v := by
  unfold normalizeValue
  rw [R.name, R.valueType, R.nullable, normalizeType_congr R.enums]

theorem stateValue_congr {input input' : Fields} (h : Fields.get input' f.name = Fields.get input f.name) :
    stateValue P S input f = stateValue P S' input' f' := by
  unfold stateValue
  rw [R.name, R.nullable, h, normalizeValue_congr R]
  cases Fields.get input f.name with
  | none => rfl
  | some v => exact normalizeValue_congr R v

theorem identityValue_congr {m m' : ModelDescriptor} {n : String} (hf : m.field n = some f) (hf' : m'.field n = some f')
    (input : Fields) : identityValue P S m input n = identityValue P S' m' input n := by
  unfold identityValue
  simp only [hf, hf']
  cases Fields.get input n with
  | none => rfl
  | some v => exact normalizeValue_congr R v

end

/-! ## Descriptors that declare what they name -/

/-- A descriptor of a valid schema: names are unique, and every enum and identity field is declared. -/
structure Closed (d : ModelReadDescriptor) : Prop where
  fields : (d.fields.map (·.name)).Nodup
  enums : (d.enums.map (·.name)).Nodup
  declared : ∀ f ∈ d.fields, ∀ n ∈ f.valueType.enums, ∃ e ∈ d.enums, e.name = n
  identity : d.identity.Nodup
  named : ∀ n ∈ d.identity, (d.model.field n).isSome

theorem field_of_closed {d : ModelReadDescriptor} (C : Closed d) {f : FieldDescriptor} (hf : f ∈ d.fields) :
    d.model.field f.name = some f :=
  ModelDescriptor.field_of_mem (m := d.model) C.fields hf

theorem field_isSome {d : ModelReadDescriptor} {name : String} :
    (d.model.field name).isSome ↔ ∃ f ∈ d.fields, f.name = name := by
  constructor
  · intro h
    obtain ⟨f, hf⟩ := Option.isSome_iff_exists.1 h
    exact ⟨f, ModelDescriptor.mem_of_field hf⟩
  · rintro ⟨f, hf, hname⟩
    cases hg : d.model.field name with
    | some _ => rfl
    | none => exact absurd hname (ModelDescriptor.field_eq_none.1 hg f hf)

theorem enumValue_iff {E : List EnumDescriptor} (hn : (E.map (·.name)).Nodup) {e : EnumDescriptor} (he : e ∈ E) {s : String} :
    EnumValue E e.name s ↔ s ∈ e.values := by
  constructor
  · rintro ⟨e', he', hname, hs⟩
    rwa [List.inj_on_of_nodup_map hn he' he hname] at hs
  · intro hs
    exact ⟨e, he, rfl, hs⟩

theorem Closed.stateFields_nodup {d : ModelReadDescriptor} (C : Closed d) : (d.model.stateFields.map (·.name)).Nodup :=
  List.Nodup.sublist (List.filter_sublist.map _) C.fields

theorem Closed.find_stateField {d : ModelReadDescriptor} (C : Closed d) {f : FieldDescriptor} (hf : f ∈ d.model.stateFields) :
    d.model.stateFields.find? (·.name = f.name) = some f := by
  cases hg : d.model.stateFields.find? (·.name = f.name) with
  | none =>
    have hno := List.find?_eq_none.1 hg f hf
    simp at hno
  | some g =>
    have hname : g.name = f.name := by simpa using List.find?_some hg
    rw [List.inj_on_of_nodup_map C.stateFields_nodup (List.mem_of_find?_eq_some hg) hf hname]

/-- A state field that is absent is given its fallback. -/
theorem get_fillState {d : ModelReadDescriptor} (C : Closed d) (fallback : FieldDescriptor → Option Json) (state : Fields)
    {f : FieldDescriptor} (hf : f ∈ d.model.stateFields) :
    Fields.get (d.model.stateFields.foldl (fillField fallback) state) f.name = (Fields.get state f.name).or (fallback f) := by
  rw [get_fillFields fallback C.stateFields_nodup, C.find_stateField hf, Option.bind_some]

theorem mem_enums_scalarList {enums : List EnumDescriptor} {ty : ValueType} (hvalid : Schema.validType enums ty = true)
    {n : String} (hn : n ∈ ty.enums) : ty = .enum n ∧ ∃ e ∈ enums, e.name = n := by
  cases ty with
  | scalar name => simp [ValueType.enums] at hn
  | enum name =>
    simp only [ValueType.enums, List.mem_singleton] at hn
    subst hn
    simpa [Schema.validType] using hvalid
  | list element =>
    -- list elements are scalar, so that a list mentions no enum
    cases element with
    | scalar name => simp [ValueType.enums] at hn
    | enum name => simp [Schema.validType] at hvalid
    | list inner => simp [Schema.validType] at hvalid

/-- The current contract of a declared model. -/
def ModelDescriptor.current (m : ModelDescriptor) (enums : List EnumDescriptor) : ModelReadDescriptor :=
  { name := m.name, version := m.version, identity := m.identity, fields := m.fields, enums }

theorem valid_closed {P : Platform} {S : Schema} (hS : S.validModels P = true) {m : ModelDescriptor} (hm : m ∈ S.models) :
    Closed (m.current S.enums) := by
  have V := declared_model hS hm
  refine ⟨V.fields, (declared_names hS).1, fun f hf n hn => ?_, V.identity, fun n hn => ?_⟩
  · have htype := V.field f hf
    simp only [Schema.validField, Bool.and_eq_true] at htype
    exact (mem_enums_scalarList htype.1.1.2 hn).2
  · have hnamed := V.named n hn
    unfold Schema.validIdentity at hnamed
    rw [field_isSome]
    cases hf : m.field n with
    | none => simp [hf] at hnamed
    | some f => exact ⟨f, ModelDescriptor.mem_of_field hf⟩

/-! ## Models that read alike -/

/-- Models with the same identity names, and with fields that read as each other's. -/
structure ReadAlike (E E' : List EnumDescriptor) (m m' : ModelDescriptor) : Prop where
  identity : m.identity.Perm m'.identity
  toward : ∀ f ∈ m.fields, ∃ f' ∈ m'.fields, ReadsAs E E' f f'
  back : ∀ f' ∈ m'.fields, ∃ f ∈ m.fields, ReadsAs E E' f f'

section
variable {P : Platform} {S S' : Schema} {m m' : ModelDescriptor} {name : String} (hm : S.model name = .ok m)
  (hm' : S'.model name = .ok m') (hn : (m.fields.map (·.name)).Nodup) (hn' : (m'.fields.map (·.name)).Nodup)
  (A : ReadAlike S.enums S'.enums m m')
include A

theorem ReadAlike.symm : ReadAlike S'.enums S.enums m' m :=
  ⟨A.identity.symm, fun f hf => (A.back f hf).imp fun _ h => ⟨h.1, h.2.symm⟩,
    fun f hf => (A.toward f hf).imp fun _ h => ⟨h.1, h.2.symm⟩⟩

include hm hm' hn hn'

theorem ReadAlike.state {v w : Json} {loader : Bool} (h : S.state P name v loader = .ok w) :
    S'.state P name v loader = .ok w := by
  obtain ⟨input, out, rfl, rfl, hnames, hout⟩ := (state_iff hm hn).1 h
  have hstate {f f' : FieldDescriptor} (R : ReadsAs S.enums S'.enums f f') : f.name ∉ m.identity ↔ f'.name ∉ m'.identity := by
    rw [R.name, A.identity.mem_iff]
  refine (state_iff hm' hn').2 ⟨input, out, rfl, rfl, fun e he => ?_, hout.congr (fun f hf => ?_) fun f' hf' => ?_⟩
  · have hname := hnames e he
    cases loader with
    | true =>
      obtain ⟨f, hf, hfe⟩ := hname
      obtain ⟨f', hf', R⟩ := A.toward f hf
      exact ⟨f', hf', R.name.trans hfe⟩
    | false =>
      intro hid
      exact hname (A.identity.mem_iff.2 hid)
  · obtain ⟨hf, hid⟩ := ModelDescriptor.mem_stateFields.1 hf
    obtain ⟨f', hf', R⟩ := A.toward f hf
    exact ⟨f', ModelDescriptor.mem_stateFields.2 ⟨hf', (hstate R).1 hid⟩, R.name⟩
  · obtain ⟨hf', hid⟩ := ModelDescriptor.mem_stateFields.1 hf'
    obtain ⟨f, hf, R⟩ := A.back f' hf'
    exact ⟨f, ModelDescriptor.mem_stateFields.2 ⟨hf, (hstate R).2 hid⟩, R.name.symm, stateValue_congr R rfl⟩

omit hn in
theorem ReadAlike.recordKey (hid : m.identity.Nodup) (hnamed : ∀ n ∈ m.identity, (m.field n).isSome) {v : Json} {key : RecordKey}
    (h : S.recordKey P name v = .ok key) : S'.recordKey P name v = .ok key := by
  obtain ⟨input, out, rfl, rfl, hlen, hnames, hout⟩ := (recordKey_iff hm hid).1 h
  refine (recordKey_iff hm' (A.identity.nodup_iff.1 hid)).2 ⟨input, out, rfl, rfl, hlen.trans A.identity.length_eq,
    fun e he => A.identity.mem_iff.1 (hnames e he), hout.congr (fun n hn => ⟨n, A.identity.mem_iff.1 hn, rfl⟩) fun n hn => ?_⟩
  have hin := A.identity.mem_iff.2 hn
  obtain ⟨f, hf⟩ := Option.isSome_iff_exists.1 (hnamed n hin)
  obtain ⟨hmem, rfl⟩ := ModelDescriptor.mem_of_field hf
  obtain ⟨f', hf', R⟩ := A.toward f hmem
  have hfield : m'.field f.name = some f' := R.name ▸ ModelDescriptor.field_of_mem hn' hf'
  exact ⟨f.name, hin, rfl, identityValue_congr R hf hfield input⟩

end

end Axton
