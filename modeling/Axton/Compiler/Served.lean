import Axton.Compiler.ModelHistory
import Axton.Core.Arguments

/-!
# Records between the versions of a snapshot

A snapshot that may replace another (`Serves`) exchanges records with it in both directions. A record of
the older one is a record of the newer one once null stands in what it lacks; a record of the newer one
reads under the older one without the fields that one does not know, with the same values.
-/

namespace Axton.Compiler

/-- A state with null in the fields of `d` that it lacks. -/
def withNulls (d : ModelReadDescriptor) (state : Fields) : Fields :=
  d.model.stateFields.foldl (fillField fun _ => some .null) state

/-- The entries of a state that `d` knows. -/
def known (d : ModelReadDescriptor) (state : Fields) : Fields := state.filter fun e => d.fields.any (·.name = e.1)

@[simp] theorem model_readSchema (S : Schema) (d : ModelReadDescriptor) : (readSchema S d).model d.name = .ok d.model := by
  simp [readSchema, Schema.model, ModelReadDescriptor.model]

theorem get_known (d : ModelReadDescriptor) (state : Fields) (name : String) :
    Fields.get (known d state) name = if (d.model.field name).isSome then Fields.get state name else none := by
  have hany : (d.fields.any (·.name = name)) = (d.model.field name).isSome := by
    rw [Bool.eq_iff_iff, field_isSome]
    simp
  rw [known, Fields.get_filter state fun n => d.fields.any (·.name = n), hany]

section
variable {P : Platform} {a b : ModelReadDescriptor} (C : Closed a) (D : Closed b) (V : Serves a b)
include C D V

/-- A kept field reads as before. -/
theorem Serves.readsAs {f f' : FieldDescriptor} (hf : f ∈ a.fields) (hf' : b.model.field f.name = some f') :
    ReadsAs a.enums b.enums f f' := by
  obtain ⟨g, hg, hshape⟩ := V.keeps f hf
  rw [hf', Option.some.injEq] at hg
  subst hg
  simp only [FieldDescriptor.withoutCreationPolicy, FieldDescriptor.mk.injEq] at hshape
  refine ⟨hshape.1, hshape.2.1, hshape.2.2.1, fun n hn s => ?_⟩
  obtain ⟨e, he, rfl⟩ := C.declared f hf n hn
  have hb := List.mem_of_find?_eq_some (V.enums e he)
  rw [enumValue_iff C.enums he, enumValue_iff D.enums hb]

theorem Serves.field {n : String} {f : FieldDescriptor} (hf : a.model.field n = some f) :
    ∃ f', b.model.field n = some f' ∧ ReadsAs a.enums b.enums f f' := by
  obtain ⟨hmem, rfl⟩ := ModelDescriptor.mem_of_field hf
  obtain ⟨f', hf', -⟩ := V.keeps f hmem
  exact ⟨f', hf', V.readsAs C D hmem hf'⟩

theorem Serves.stateField {f : FieldDescriptor} (hf : f ∈ a.model.stateFields) :
    ∃ f' ∈ b.model.stateFields, ReadsAs a.enums b.enums f f' := by
  obtain ⟨hmem, hid⟩ := ModelDescriptor.mem_stateFields.1 hf
  obtain ⟨f', hf', R⟩ := V.field C D (field_of_closed C hmem)
  have hid' : f'.name ∉ b.model.identity := by
    rw [R.name]
    show f.name ∉ b.identity
    rw [V.identity]
    exact hid
  exact ⟨f', ModelDescriptor.mem_stateFields.2 ⟨(ModelDescriptor.mem_of_field hf').1, hid'⟩, R⟩

theorem Serves.recordKey_iff (S S' : Schema) {v : Json} {key : RecordKey} :
    (readSchema S a).recordKey P a.name v = .ok key ↔ (readSchema S' b).recordKey P b.name v = .ok key := by
  have hid : b.model.identity = a.model.identity := V.identity
  have hval (input : Fields) (n : String) (hn : n ∈ a.model.identity) :
      identityValue P (readSchema S a) a.model input n = identityValue P (readSchema S' b) b.model input n := by
    obtain ⟨f, hf⟩ := Option.isSome_iff_exists.1 (C.named n hn)
    obtain ⟨f', hf', R⟩ := V.field C D hf
    exact identityValue_congr R hf hf' input
  rw [Axton.recordKey_iff (model_readSchema S a) C.identity, Axton.recordKey_iff (model_readSchema S' b) D.identity, hid,
    V.name]
  constructor
  · rintro ⟨input, out, hv, hkey, hlen, hnames, hout⟩
    exact ⟨input, out, hv, hkey, hlen, hnames,
      hout.congr (fun n hn => ⟨n, hn, rfl⟩) fun n hn => ⟨n, hn, rfl, hval input n hn⟩⟩
  · rintro ⟨input, out, hv, hkey, hlen, hnames, hout⟩
    exact ⟨input, out, hv, hkey, hlen, hnames,
      hout.congr (fun n hn => ⟨n, hn, rfl⟩) fun n hn => ⟨n, hn, rfl, (hval input n hn).symm⟩⟩

/-! ## Both directions -/

/-- The value of a field of the newer snapshot, with null in what the state lacks. -/
theorem Serves.filledValue (S S' : Schema) {fs : Fields} (hknown : ∀ e ∈ fs, ∃ f ∈ a.fields, f.name = e.1)
    {f' : FieldDescriptor} (hf' : f' ∈ b.model.stateFields)
    (hold : ∀ f ∈ a.model.stateFields, ∃ v, stateValue P (readSchema S a) fs f = .ok v) :
    (∃ f ∈ a.model.stateFields, f.name = f'.name ∧
        stateValue P (readSchema S' b) (withNulls b fs) f' = stateValue P (readSchema S a) fs f) ∨
      ((a.model.field f'.name = none ∧ Fields.get fs f'.name = none ∧ f'.nullable = true) ∧
        stateValue P (readSchema S' b) (withNulls b fs) f' = .ok .null) := by
  obtain ⟨hmem, hid⟩ := ModelDescriptor.mem_stateFields.1 hf'
  have hfill : Fields.get (withNulls b fs) f'.name = (Fields.get fs f'.name).or (some .null) :=
    get_fillState D (fun _ => some .null) fs hf'
  cases hf : a.model.field f'.name with
  | some f =>
    obtain ⟨hfa, hname⟩ := ModelDescriptor.mem_of_field hf
    have hstate : f ∈ a.model.stateFields := by
      refine ModelDescriptor.mem_stateFields.2 ⟨hfa, ?_⟩
      rw [hname]
      show f'.name ∉ a.identity
      rw [← V.identity]
      exact hid
    have R : ReadsAs a.enums b.enums f f' := V.readsAs C D hfa (hname ▸ field_of_closed D hmem)
    refine .inl ⟨f, hstate, hname, ?_⟩
    cases hg : Fields.get fs f.name with
    | some v =>
      refine (@stateValue_congr P (readSchema S a) (readSchema S' b) f f' R _ _ ?_).symm
      rw [hname] at hg ⊢
      rw [hfill, hg]
      rfl
    | none =>
      -- only a nullable field could be absent, and it reads as null
      obtain ⟨v, hv⟩ := hold f hstate
      have hnull : f.nullable = true := by
        cases hn : f.nullable with
        | true => rfl
        | false => simp [stateValue, hg, hn] at hv
      have hnull' : f'.nullable = true := R.nullable.trans hnull
      rw [← hname, hg] at hfill
      simp [stateValue, hg, hnull, hnull', ← hname, hfill, normalizeValue, Json.isNull]
  | none =>
    have hnull : f'.nullable = true := V.added f' hmem hf
    have hget : Fields.get fs f'.name = none := by
      cases hg : Fields.get fs f'.name with
      | none => rfl
      | some v =>
        obtain ⟨f, hfa, hname⟩ := hknown _ (Fields.mem_of_get hg)
        exact absurd hname (ModelDescriptor.field_eq_none.1 hf f hfa)
    refine .inr ⟨⟨rfl, hget, hnull⟩, ?_⟩
    rw [hget] at hfill
    simp [stateValue, hfill, hnull, normalizeValue, Json.isNull]

/-- **A record of the older snapshot is one of the newer**, with null in the fields that one added. -/
theorem Serves.state_upgrade (S S' : Schema) {loader : Bool} {fs : Fields} {w : Json}
    (hknown : ∀ e ∈ fs, ∃ f ∈ a.fields, f.name = e.1)
    (h : (readSchema S a).state P a.name (.obj fs) loader = .ok w) :
    ∃ w', (readSchema S' b).state P b.name (.obj (withNulls b fs)) loader = .ok w' ∧ RecordWidened a.model b.model w w' := by
  obtain ⟨_, out, hinput, rfl, hnames, hout⟩ := (state_iff (model_readSchema S a) C.fields).1 h
  cases hinput
  have hold (f : FieldDescriptor) (hf : f ∈ a.model.stateFields) : ∃ v, stateValue P (readSchema S a) fs f = .ok v := by
    obtain ⟨v, hv, -⟩ := hout.value f hf
    exact ⟨v, hv⟩
  have hval (f' : FieldDescriptor) (hf' : f' ∈ b.model.stateFields) :
      ∃ v, stateValue P (readSchema S' b) (withNulls b fs) f' = .ok v := by
    rcases V.filledValue C D S S' hknown hf' hold with ⟨f, hf, -, hsame⟩ | ⟨-, hnull⟩
    · rw [hsame]
      exact hold f hf
    · exact ⟨_, hnull⟩
  obtain ⟨out', hout'⟩ := Collects.exists_of_values D.stateFields_nodup hval
  have hnames' : StateNames b.model loader (withNulls b fs) := by
    intro e he
    rcases mem_fillFields he with he | ⟨f, hf, hname⟩
    · cases loader with
      | true =>
        obtain ⟨f, hf, hname⟩ := hknown e he
        obtain ⟨f', hf', -⟩ := V.keeps f hf
        obtain ⟨hmem, hname'⟩ := ModelDescriptor.mem_of_field hf'
        exact ⟨f', hmem, hname'.trans hname⟩
      | false =>
        have hno := hnames e he
        show e.1 ∉ b.identity
        rw [V.identity]
        exact hno
    · obtain ⟨hmem, hid⟩ := ModelDescriptor.mem_stateFields.1 hf
      cases loader with
      | true => exact ⟨f, hmem, hname⟩
      | false => exact hname ▸ hid
  refine ⟨.obj out', (state_iff (model_readSchema S' b) D.fields).2 ⟨_, out', rfl, rfl, hnames', hout'⟩, out, out', rfl, rfl,
    fun x => ?_⟩
  by_cases hx : ∃ f' ∈ b.model.stateFields, f'.name = x
  · obtain ⟨f', hf', rfl⟩ := hx
    obtain ⟨v', hv', hget'⟩ := hout'.value f' hf'
    rcases V.filledValue C D S S' hknown hf' hold with ⟨f, hf, hname, hsame⟩ | ⟨⟨hnone, -, hnullable⟩, hnull⟩
    · obtain ⟨v, hv, hget⟩ := hout.value f hf
      rw [hsame, hv, Except.ok.injEq] at hv'
      rw [hname] at hget
      exact .inl (by rw [hget, hget', hv'])
    · rw [hnull, Except.ok.injEq] at hv'
      have hno (f : FieldDescriptor) (hf : f ∈ a.model.stateFields) : f.name ≠ f'.name :=
        ModelDescriptor.field_eq_none.1 hnone f (ModelDescriptor.mem_stateFields.1 hf).1
      have hmem := (ModelDescriptor.mem_stateFields.1 hf').1
      exact .inr ⟨hout.get_none hno, by rw [hget', hv'], hnone, f', field_of_closed D hmem, hnullable⟩
  · have hno' (f' : FieldDescriptor) (hf' : f' ∈ b.model.stateFields) : f'.name ≠ x := fun hname => hx ⟨f', hf', hname⟩
    have hno (f : FieldDescriptor) (hf : f ∈ a.model.stateFields) : f.name ≠ x := by
      obtain ⟨f', hf', R⟩ := V.stateField C D hf
      exact R.name ▸ hno' f' hf'
    exact .inl (by rw [hout.get_none hno, hout'.get_none hno'])

/-- What the newer snapshot accepts the older one accepts, from any input with the same values in its own fields. -/
theorem Serves.state_read_of (S S' : Schema) {loader : Bool} {fs fs' w' : Fields} (hnames : StateNames a.model loader fs)
    (hget : ∀ f ∈ a.model.stateFields, Fields.get fs f.name = Fields.get fs' f.name)
    (h : (readSchema S' b).state P b.name (.obj fs') loader = .ok (.obj w')) :
    ∃ w, (readSchema S a).state P a.name (.obj fs) loader = .ok (.obj w) ∧
      ∀ x, Fields.get w x = if (a.model.field x).isSome then Fields.get w' x else none := by
  obtain ⟨_, _, hinput, hw, -, hout⟩ := (state_iff (model_readSchema S' b) D.fields).1 h
  cases hinput
  cases hw
  have hsame (f f' : FieldDescriptor) (hf : f ∈ a.model.stateFields) (R : ReadsAs a.enums b.enums f f') :
      stateValue P (readSchema S a) fs f = stateValue P (readSchema S' b) fs' f' :=
    @stateValue_congr P (readSchema S a) (readSchema S' b) f f' R _ _ (hget f hf).symm
  have hval (f : FieldDescriptor) (hf : f ∈ a.model.stateFields) : ∃ v, stateValue P (readSchema S a) fs f = .ok v := by
    obtain ⟨f', hf', R⟩ := V.stateField C D hf
    obtain ⟨v, hv, -⟩ := hout.value f' hf'
    exact ⟨v, (hsame f f' hf R).trans hv⟩
  obtain ⟨w, hw⟩ := Collects.exists_of_values C.stateFields_nodup hval
  refine ⟨w, (state_iff (model_readSchema S a) C.fields).2 ⟨_, w, rfl, rfl, hnames, hw⟩, fun x => ?_⟩
  by_cases hx : ∃ f ∈ a.model.stateFields, f.name = x
  · obtain ⟨f, hf, rfl⟩ := hx
    obtain ⟨f', hf', R⟩ := V.stateField C D hf
    obtain ⟨v, hv, hgetv⟩ := hw.value f hf
    obtain ⟨v', hv', hgetv'⟩ := hout.value f' hf'
    rw [hsame f f' hf R, hv', Except.ok.injEq] at hv
    have hsome : (a.model.field f.name).isSome := field_isSome.2 ⟨f, (ModelDescriptor.mem_stateFields.1 hf).1, rfl⟩
    rw [if_pos hsome, hgetv, ← hv, ← hgetv', R.name]
  · have hno (f : FieldDescriptor) (hf : f ∈ a.model.stateFields) : f.name ≠ x := fun hname => hx ⟨f, hf, hname⟩
    rw [hw.get_none hno]
    split
    · rename_i hsome
      obtain ⟨f, hf, rfl⟩ := field_isSome.1 hsome
      -- a declared name that is no state field is an identity name, which no state holds
      have hid : f.name ∈ a.identity := by
        by_contra hid
        exact hx ⟨f, ModelDescriptor.mem_stateFields.2 ⟨hf, hid⟩, rfl⟩
      refine (hout.get_none fun f' hf' hname => ?_).symm
      have hno := (ModelDescriptor.mem_stateFields.1 hf').2
      rw [hname] at hno
      refine hno ?_
      show f.name ∈ b.identity
      rw [V.identity]
      exact hid
    · rfl

/-- **A record of the newer snapshot reads under the older one**, without the fields that one does not know. -/
theorem Serves.state_read (S S' : Schema) {loader : Bool} {fs w' : Fields}
    (h : (readSchema S' b).state P b.name (.obj fs) loader = .ok (.obj w')) :
    ∃ w, (readSchema S a).state P a.name (.obj (known a fs)) loader = .ok (.obj w) ∧
      ∀ x, Fields.get w x = if (a.model.field x).isSome then Fields.get w' x else none := by
  obtain ⟨_, _, hinput, -, hnames, -⟩ := (state_iff (model_readSchema S' b) D.fields).1 h
  cases hinput
  refine V.state_read_of C D S S' (fun e he => ?_) (fun f hf => ?_) h
  · obtain ⟨he, hany⟩ := List.mem_filter.1 he
    cases loader with
    | true =>
      show ∃ f ∈ a.fields, f.name = e.1
      simpa using hany
    | false =>
      have hno := hnames e he
      show e.1 ∉ a.identity
      rw [← V.identity]
      exact hno
  · have hsome : (a.model.field f.name).isSome := field_isSome.2 ⟨f, (ModelDescriptor.mem_stateFields.1 hf).1, rfl⟩
    rw [get_known, if_pos hsome]

/-- A caller's record that normalizes under the newer snapshot normalizes under the older one, to the same
values of its fields. -/
theorem Serves.read_snapshot {S S' : Schema} (ha : S.readDescriptor a.name a.version = .ok a)
    (hb : S'.readDescriptor b.name b.version = .ok b) {v : Json} {r' : Fields}
    (h : S'.normalizeReadSnapshot P b.name b.version v = .ok (.obj r')) :
    ∃ r, S.normalizeReadSnapshot P a.name a.version v = .ok (.obj r) ∧
      ∀ x, Fields.get r x = if (a.model.field x).isSome then Fields.get r' x else none := by
  unfold Schema.normalizeReadSnapshot at h ⊢
  split at h
  · cases h
  · rename_i hnull
    rw [if_neg hnull]
    simp only [hb, bind_ok, Except.ok.injEq, exists_eq_left'] at h
    cases hv : v.asObject with
    | none => simp [hv] at h
    | some object =>
      simp only [hv, bind_ok, pure_ok, Json.obj.injEq] at h
      obtain ⟨key, hkey, w, hw, rfl⟩ := h
      obtain ⟨input, out', -, rfl, hnames, hout⟩ := (state_iff (model_readSchema S' b) D.fields).1 hw
      obtain ⟨_, id, -, rfl, -, -, hid⟩ := (Axton.recordKey_iff (model_readSchema S' b) D.identity).1 hkey
      have hkeya := (V.recordKey_iff C D S S').2 hkey
      rw [V.identity] at hkeya
      have hfilled (f : FieldDescriptor) (hf : f ∈ a.model.stateFields) :
          Fields.get (Schema.fillFallbacks a (object.filter fun e => !a.identity.contains e.1)) f.name =
            Fields.get (Schema.fillFallbacks b (object.filter fun e => !b.identity.contains e.1)) f.name := by
        obtain ⟨hmem, -⟩ := ModelDescriptor.mem_stateFields.1 hf
        obtain ⟨f', hf', R⟩ := V.stateField C D hf
        obtain ⟨g, hg, hshape⟩ := V.keeps f hmem
        have hgf : g = f' := by
          have hfield := field_of_closed D (ModelDescriptor.mem_stateFields.1 hf').1
          rw [R.name, hg, Option.some.injEq] at hfield
          exact hfield
        subst hgf
        simp only [FieldDescriptor.withoutCreationPolicy, FieldDescriptor.mk.injEq] at hshape
        have hfallback : readFieldFallback g = readFieldFallback f := by
          unfold readFieldFallback
          rw [hshape.2.2.1, hshape.2.2.2.1]
        have hfill := get_fillState D readFieldFallback (object.filter fun e => !b.identity.contains e.1) hf'
        rw [R.name, hfallback, V.identity] at hfill
        rw [V.identity]
        exact (get_fillState C readFieldFallback _ hf).trans hfill.symm
      have hnamesa : StateNames a.model false
          (Schema.fillFallbacks a (object.filter fun e => !a.identity.contains e.1)) := by
        intro e he
        rcases mem_fillFields he with he | ⟨f, hf, hname⟩
        · obtain ⟨-, hno⟩ := List.mem_filter.1 he
          show e.1 ∉ a.identity
          simpa using hno
        · exact hname ▸ (ModelDescriptor.mem_stateFields.1 hf).2
      obtain ⟨w, hwa, hget⟩ := V.state_read_of C D S S' hnamesa hfilled hw
      obtain ⟨_, _, -, hw', -, houta⟩ := (state_iff (model_readSchema S a) C.fields).1 hwa
      cases hw'
      refine ⟨Fields.extend id w, ?_, fun x => ?_⟩
      · simp only [ha, bind_ok, Except.ok.injEq, exists_eq_left', pure_ok, Json.obj.injEq]
        exact ⟨_, hkeya, _, hwa, rfl⟩
      · show Fields.get (Fields.extend id w) x = _
        rw [houta.ordered.get_extend, hget]
        split
        · exact (hout.ordered.get_extend id x).symm
        · rename_i hnone
          refine hid.get_none fun n hn hname => hnone ?_
          have hn : n ∈ a.identity := V.identity ▸ hn
          exact hname ▸ C.named n hn

omit D V in
/-- The enum values of a record that was read are values the reader knows. -/
theorem state_enums (S : Schema) {loader : Bool} {v : Json} {w : Fields}
    (h : (readSchema S a).state P a.name v loader = .ok (.obj w)) {f : FieldDescriptor} (hf : f ∈ a.fields) {n s : String}
    (hty : f.valueType = .enum n) (hget : Fields.get w f.name = some (.str s)) : EnumValue a.enums n s := by
  obtain ⟨input, _, -, hw, -, hout⟩ := (state_iff (model_readSchema S a) C.fields).1 h
  cases hw
  obtain ⟨g, hg, hname⟩ := hout.only _ (Fields.mem_of_get hget)
  have hfg : g = f := List.inj_on_of_nodup_map C.fields (ModelDescriptor.mem_stateFields.1 hg).1 hf hname
  subst hfg
  obtain ⟨x, hx, hgetx⟩ := hout.value g hg
  rw [hget, Option.some.injEq] at hgetx
  subst hgetx
  have hnorm {u : Json} (hu : normalizeValue P a.enums g u = .ok (.str s)) : EnumValue a.enums n s := by
    unfold normalizeValue at hu
    split at hu
    · split at hu <;> cases hu
    · unfold normalizeType at hu
      rw [hty] at hu
      simp only at hu
      cases hs : u.asStr with
      | none => simp [hs] at hu
      | some t =>
        simp only [hs] at hu
        split at hu
        · rename_i hany
          simp only [Except.ok.injEq] at hu
          subst hu
          simp only [Json.asStr, Option.some.injEq] at hs
          subst hs
          obtain ⟨e, he, hmatch⟩ := List.any_eq_true.1 hany
          simp only [Bool.and_eq_true, decide_eq_true_eq, List.contains_iff_mem] at hmatch
          exact ⟨e, he, hmatch.1, hmatch.2⟩
        · cases hu
  unfold stateValue at hx
  cases hg' : Fields.get input g.name with
  | some u =>
    simp only [hg'] at hx
    exact hnorm hx
  | none =>
    simp only [hg'] at hx
    split at hx
    · exact hnorm hx
    · cases hx

end

end Axton.Compiler
