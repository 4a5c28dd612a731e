import Axton.Core.Collect

/-!
# Reading records against a wider snapshot

An action's inputs are read against a snapshot of models and enums. A second snapshot is *wider* when
it keeps every enum value and every field of the first. Records, patches and identities the first
accepts are accepted by the second and normalize alike: a created record has null in the nullable
fields its model gained. The one exception is an update slot that had no patch list and now has one.
-/

namespace Axton

/-! ## Wider snapshots -/

/-- What a retained contract keeps of a field: creation defaults are client policy (history.rs:12). -/
def FieldDescriptor.withoutCreationPolicy (f : FieldDescriptor) : FieldDescriptor := { f with createDefault := none }

/-- Every field is kept with its shape, under the same identity. -/
structure ModelDescriptor.Widens (m m' : ModelDescriptor) : Prop where
  identity : m'.identity = m.identity
  keeps : ∀ f ∈ m.fields, ∃ f', m'.field f.name = some f' ∧ f'.withoutCreationPolicy = f.withoutCreationPolicy
  distinct : (m'.fields.map (·.name)).Nodup

/-- Every enum value is kept, and every model is kept with its fields. -/
structure Schema.Widens (O N : Schema) : Prop where
  enums : ∀ e ∈ O.enums, ∃ e' ∈ N.enums, e'.name = e.name ∧ ∀ s ∈ e.values, s ∈ e'.values
  models : ∀ name m, O.model name = .ok m → ∃ m', N.model name = .ok m' ∧ m.Widens m'

theorem ModelDescriptor.Widens.field {m m' : ModelDescriptor} (M : m.Widens m') {name : String} {f : FieldDescriptor}
    (h : m.field name = some f) : ∃ f', m'.field name = some f' ∧ f'.valueType = f.valueType := by
  obtain ⟨hmem, rfl⟩ := ModelDescriptor.mem_of_field h
  obtain ⟨f', hf', hshape⟩ := M.keeps f hmem
  exact ⟨f', hf', congrArg (·.valueType) hshape⟩

section
variable {P : Platform} {O N : Schema} (W : O.Widens N)
include W

theorem normalizeType_widens {ty : ValueType} {v w : Json} (h : normalizeType P O.enums ty v = .ok w) :
    normalizeType P N.enums ty v = .ok w := by
  induction ty generalizing v w with
  | scalar name => exact h
  | enum name =>
    unfold normalizeType at h ⊢
    cases hs : v.asStr with
    | none => simp [hs] at h
    | some s =>
      simp only [hs] at h ⊢
      split at h
      · rename_i hc
        obtain ⟨e, he, hmatch⟩ := List.any_eq_true.1 hc
        simp only [Bool.and_eq_true, decide_eq_true_eq, List.contains_iff_mem] at hmatch
        obtain ⟨e', he', hname, hvalues⟩ := W.enums e he
        have hc' : (N.enums.any fun e => e.name = name && e.values.contains s) = true := by
          refine List.any_eq_true.2 ⟨e', he', ?_⟩
          simp [hname, hmatch.1, hvalues s hmatch.2]
        rw [if_pos hc']
        exact h
      · cases h
  | list element ih =>
    unfold normalizeType at h ⊢
    cases hs : v.asArray with
    | none => simp [hs] at h
    | some xs =>
      simp only [hs, map_ok, mapM_ok] at h ⊢
      obtain ⟨ys, hys, rfl⟩ := h
      exact ⟨ys, hys.imp fun _ _ hx => ih hx, rfl⟩

theorem normalizeValue_widens {f f' : FieldDescriptor} {v w : Json}
    (hshape : f'.withoutCreationPolicy = f.withoutCreationPolicy) (h : normalizeValue P O.enums f v = .ok w) :
    normalizeValue P N.enums f' v = .ok w := by
  simp only [FieldDescriptor.withoutCreationPolicy, FieldDescriptor.mk.injEq] at hshape
  obtain ⟨hname, htype, hnull, -⟩ := hshape
  unfold normalizeValue at h ⊢
  rw [hname, htype, hnull]
  split
  · rename_i hv
    simpa [hv] using h
  · rename_i hv
    rw [if_neg hv] at h
    exact normalizeType_widens W h

variable {m m' : ModelDescriptor} (M : m.Widens m')
include M

theorem identityValue_widens {input : Fields} {name : String} {w : Json} (h : identityValue P O m input name = .ok w) :
    identityValue P N m' input name = .ok w := by
  unfold identityValue at h ⊢
  cases hf : m.field name with
  | none => simp [hf] at h
  | some f =>
    obtain ⟨hmem, rfl⟩ := ModelDescriptor.mem_of_field hf
    obtain ⟨f', hf', hshape⟩ := M.keeps f hmem
    simp only [hf] at h
    simp only [hf']
    cases hg : Fields.get input f.name with
    | none => simp [hg] at h
    | some v =>
      simp only [hg] at h ⊢
      exact normalizeValue_widens W hshape h

theorem patchValue_widens {e : String × Json} {w : Json} (h : patchValue P O m e = .ok w) :
    patchValue P N m' e = .ok w := by
  unfold patchValue at h ⊢
  rw [M.identity]
  split at h
  · cases h
  · rename_i hid
    rw [if_neg hid]
    cases hf : m.field e.1 with
    | none => simp [hf] at h
    | some f =>
      obtain ⟨hmem, hname⟩ := ModelDescriptor.mem_of_field hf
      obtain ⟨f', hf', hshape⟩ := M.keeps f hmem
      simp only [hf] at h
      rw [hname] at hf'
      simp only [hf']
      exact normalizeValue_widens W hshape h

omit M in
theorem stateValue_widens {f f' : FieldDescriptor} {input : Fields} {w : Json}
    (hshape : f'.withoutCreationPolicy = f.withoutCreationPolicy) (h : stateValue P O input f = .ok w) :
    stateValue P N input f' = .ok w := by
  have hfields := hshape
  simp only [FieldDescriptor.withoutCreationPolicy, FieldDescriptor.mk.injEq] at hfields
  unfold stateValue at h ⊢
  rw [hfields.1, hfields.2.2.1]
  cases hg : Fields.get input f.name with
  | some v =>
    simp only [hg] at h ⊢
    exact normalizeValue_widens W hshape h
  | none =>
    simp only [hg] at h ⊢
    split at h
    · rename_i hnull
      rw [if_pos hnull]
      exact normalizeValue_widens W hshape h
    · cases h

omit M in
theorem recordKey_widens {name : String} {v : Json} {key : RecordKey} (h : O.recordKey P name v = .ok key) :
    N.recordKey P name v = .ok key := by
  obtain ⟨m, input, out, hm, hv, hlen, hmem, hout, hkey⟩ := recordKey_ok.1 h
  obtain ⟨m', hm', M⟩ := W.models name m hm
  refine recordKey_ok.2 ⟨m', input, out, hm', hv, by rw [M.identity, hlen], by rwa [M.identity], ?_, hkey⟩
  obtain ⟨es, hes, rfl⟩ := identityFields_ok.1 hout
  refine identityFields_ok.2 ⟨es, ?_, rfl⟩
  rw [M.identity]
  exact hes.imp fun n e he => ⟨he.1, identityValue_widens W M he.2⟩

omit M in
theorem validatePatch_widens {name : String} {input : Fields} {w : Json} (h : O.validatePatch P name (.obj input) = .ok w) :
    N.validatePatch P name (.obj input) = .ok w := by
  obtain ⟨m, es, hm, hes, rfl⟩ := validatePatch_ok.1 h
  obtain ⟨m', hm', M⟩ := W.models name m hm
  exact validatePatch_ok.2 ⟨m', es, hm', hes.imp fun x e he => ⟨he.1, patchValue_widens W M he.2⟩, rfl⟩

end

/-! ## Records -/

/-- Every added field of a created record may stay empty. -/
def ModelDescriptor.Creates (m m' : ModelDescriptor) : Prop :=
  ∀ f ∈ m'.fields, m.field f.name = none → f.nullable = true

/-- The same record, up to null in nullable fields that `m'` added. -/
def RecordWidened (m m' : ModelDescriptor) (r r' : Json) : Prop :=
  ∃ fs fs', r = .obj fs ∧ r' = .obj fs' ∧ ∀ x, Fields.get fs' x = Fields.get fs x ∨
    (Fields.get fs x = none ∧ Fields.get fs' x = some .null ∧ m.field x = none ∧
      ∃ f, m'.field x = some f ∧ f.nullable = true)

section
variable {P : Platform} {O N : Schema} (W : O.Widens N)
include W

variable {m m' : ModelDescriptor} (M : m.Widens m') {input : Fields}

include M in
/-- A field both models declare reads the same. -/
theorem stateValue_kept {f f' : FieldDescriptor} {w : Json} (hf : f ∈ m.fields) (hf' : f' ∈ m'.fields)
    (hname : f'.name = f.name) (h : stateValue P O input f = .ok w) : stateValue P N input f' = .ok w := by
  obtain ⟨g, hg, hshape⟩ := M.keeps f hf
  have hg' := ModelDescriptor.field_of_mem M.distinct hf'
  rw [hname, hg, Option.some.injEq] at hg'
  subst hg'
  exact stateValue_widens W hshape h

omit W in
/-- A nullable field the input does not have reads as null. -/
theorem stateValue_added {f : FieldDescriptor} (hknown : ∀ e ∈ input, ∃ g ∈ m.fields, g.name = e.1)
    (hnew : m.field f.name = none) (hnull : f.nullable = true) : stateValue P N input f = .ok .null := by
  have hget : Fields.get input f.name = none := by
    cases hg : Fields.get input f.name with
    | none => rfl
    | some v =>
      obtain ⟨g, hg, hgn⟩ := hknown _ (Fields.mem_of_get hg)
      exact absurd hgn (ModelDescriptor.field_eq_none.1 hnew g hg)
  simp [stateValue, hget, hnull, normalizeValue, Json.isNull]

include M in
/-- The states of a created record: every field of the wider model has a value. -/
theorem stateEntries_widens (hc : m.Creates m') (hknown : ∀ e ∈ input, ∃ g ∈ m.fields, g.name = e.1) {es : Fields}
    (hes : List.Forall₂ (fun f e => e.1 = f.name ∧ stateValue P O input f = .ok e.2)
      (m.fields.filter fun f => !m.identity.contains f.name) es) :
    ∃ es' : Fields, List.Forall₂ (fun f e => e.1 = f.name ∧ stateValue P N input f = .ok e.2)
      (m'.fields.filter fun f => !m'.identity.contains f.name) es' := by
  refine forall₂_exists fun f' hf' => ?_
  rw [List.mem_filter, M.identity] at hf'
  cases hf : m.field f'.name with
  | none => exact ⟨(f'.name, .null), rfl, stateValue_added hknown hf (hc f' hf'.1 hf)⟩
  | some f =>
    obtain ⟨hmem, hname⟩ := ModelDescriptor.mem_of_field hf
    obtain ⟨e, -, -, he⟩ := forall₂_mem_left hes (List.mem_filter.2 ⟨hmem, hname ▸ hf'.2⟩)
    exact ⟨(f'.name, e.2), rfl, stateValue_kept W M hmem hf'.1 hname.symm he⟩

include M in
/-- The collected states agree, up to null in what the wider model added. -/
theorem record_widened (hc : m.Creates m') (hknown : ∀ e ∈ input, ∃ g ∈ m.fields, g.name = e.1) {key es es' : Fields}
    (hkey : ∀ e ∈ key, e.1 ∈ m.identity)
    (hes : List.Forall₂ (fun f e => e.1 = f.name ∧ stateValue P O input f = .ok e.2)
      (m.fields.filter fun f => !m.identity.contains f.name) es)
    (hes' : List.Forall₂ (fun f e => e.1 = f.name ∧ stateValue P N input f = .ok e.2)
      (m'.fields.filter fun f => !m'.identity.contains f.name) es') :
    RecordWidened m m' (.obj (Fields.extend key (Fields.extend [] es)))
      (.obj (Fields.extend key (Fields.extend [] es'))) := by
  refine ⟨_, _, rfl, rfl, fun x => ?_⟩
  -- an entry of either state belongs to a declared field outside the identity
  have hold : ∀ v, (x, v) ∈ Fields.extend [] es → ∃ f ∈ m.fields, f.name = x ∧ x ∉ m.identity ∧ stateValue P O input f = .ok v := by
    intro v hv
    rcases Fields.mem_extend hv with hv | hv
    · obtain ⟨f, hf, rfl, hval⟩ := forall₂_mem_right hes hv
      rw [List.mem_filter] at hf
      exact ⟨f, hf.1, rfl, by simpa using hf.2, hval⟩
    · cases hv
  have hnew : ∀ v, (x, v) ∈ Fields.extend [] es' → ∃ f ∈ m'.fields, f.name = x ∧ x ∉ m.identity ∧ stateValue P N input f = .ok v := by
    intro v hv
    rcases Fields.mem_extend hv with hv | hv
    · obtain ⟨f, hf, rfl, hval⟩ := forall₂_mem_right hes' hv
      rw [List.mem_filter, M.identity] at hf
      exact ⟨f, hf.1, rfl, by simpa using hf.2, hval⟩
    · cases hv
  rcases Fields.get_extend key (Fields.extend [] es) x with ⟨w, hw, hget⟩ | ⟨hno, hget⟩
  · obtain ⟨f, hf, hfx, hid, hval⟩ := hold w hw
    rcases Fields.get_extend key (Fields.extend [] es') x with ⟨w', hw', hget'⟩ | ⟨hno', -⟩
    · obtain ⟨f', hf', hfx', -, hval'⟩ := hnew w' hw'
      rw [stateValue_kept W M hf hf' (hfx'.trans hfx.symm) hval, Except.ok.injEq] at hval'
      exact .inl (by rw [hget, hget', hval'])
    · obtain ⟨f', hf', -⟩ := M.keeps f hf
      obtain ⟨hmem', hname'⟩ := ModelDescriptor.mem_of_field hf'
      have hin : f' ∈ m'.fields.filter fun f => !m'.identity.contains f.name := by
        rw [List.mem_filter, M.identity, hname', hfx]
        exact ⟨hmem', by simpa using hid⟩
      obtain ⟨e, he, hname, -⟩ := forall₂_mem_left hes' hin
      have hex : ∃ v, (x, v) ∈ es' := ⟨e.2, by rwa [← hfx, ← hname', ← hname]⟩
      obtain ⟨v, hv⟩ := Fields.mem_collected.2 hex
      exact absurd rfl (hno' _ hv)
  · rcases Fields.get_extend key (Fields.extend [] es') x with ⟨w', hw', hget'⟩ | ⟨-, hget'⟩
    · obtain ⟨f', hf', hfx', hid, hval'⟩ := hnew w' hw'
      have hnone : m.field x = none := by
        refine ModelDescriptor.field_eq_none.2 fun f hf hfx => ?_
        have hin : f ∈ m.fields.filter fun f => !m.identity.contains f.name := by
          rw [List.mem_filter, hfx]
          exact ⟨hf, by simpa using hid⟩
        obtain ⟨e, he, hname, -⟩ := forall₂_mem_left hes hin
        have hex : ∃ v, (x, v) ∈ es := ⟨e.2, by rwa [← hfx, ← hname]⟩
        obtain ⟨v, hv⟩ := Fields.mem_collected.2 hex
        exact hno _ hv rfl
      have hkeyx : Fields.get key x = none := by
        cases hg : Fields.get key x with
        | none => rfl
        | some v => exact absurd (hkey _ (Fields.mem_of_get hg)) hid
      have hnull := hc f' hf' (hfx' ▸ hnone)
      rw [stateValue_added hknown (hfx' ▸ hnone) hnull, Except.ok.injEq] at hval'
      refine .inr ⟨hget.trans hkeyx, by rw [hget', hval'], hnone, f', ?_, hnull⟩
      rw [← hfx']
      exact ModelDescriptor.field_of_mem M.distinct hf'
    · exact .inl (hget'.trans hget.symm)

/-- A created record is the same under the wider model, with null in what that model added. -/
theorem normalizeCreate_widens {model : String} {allowed allowed' : Option (List String)} {v w : Json}
    (hm : O.model model = .ok m) (hm' : N.model model = .ok m') (M : m.Widens m') (hc : m.Creates m')
    (h : normalizeModelInput P O model .create allowed v = .ok w) :
    ∃ w', normalizeModelInput P N model .create allowed' v = .ok w' ∧ RecordWidened m m' w w' := by
  obtain ⟨object, m₀, key, st, rfl, hm₀, hkey, hst, rfl⟩ := normalizeCreate_ok.1 h
  cases hm.symm.trans hm₀
  obtain ⟨m₁, input, es, hm₁, hinput, hknown, hes, rfl⟩ := normalizeState_ok.1 hst
  cases hm.symm.trans hm₁
  cases hinput
  obtain ⟨es', hes'⟩ := stateEntries_widens W M hc hknown hes
  obtain ⟨m₂, ki, out, hm₂, -, -, -, hout, rfl⟩ := recordKey_ok.1 hkey
  cases hm.symm.trans hm₂
  refine ⟨_, normalizeCreate_ok.2 ⟨object, m', _, _, rfl, hm', ?_, normalizeState_ok.2 ⟨m', object, es', hm', rfl, ?_, hes', rfl⟩,
    rfl⟩, record_widened W M hc hknown (identityFields_names hout) hes hes'⟩
  · rw [M.identity]
    exact recordKey_widens W hkey
  · intro e he
    obtain ⟨f, hf, hfe⟩ := hknown e he
    obtain ⟨f', hf', -⟩ := M.keeps f hf
    obtain ⟨hmem, hname⟩ := ModelDescriptor.mem_of_field hf'
    exact ⟨f', hmem, hname.trans hfe⟩

theorem normalizeDelete_widens {model : String} {allowed allowed' : Option (List String)} {v w : Json}
    (h : normalizeModelInput P O model .delete allowed v = .ok w) :
    normalizeModelInput P N model .delete allowed' v = .ok w := by
  obtain ⟨object, key, rfl, hkey, hlen, rfl⟩ := normalizeDelete_ok.1 h
  exact normalizeDelete_ok.2 ⟨object, key, rfl, recordKey_widens W hkey, hlen, rfl⟩

/-- The patch of an update stays inside a list that the operand's slot did not have before. -/
def PatchKept (identity : List String) (allowed allowed' : Option (List String)) (v : Json) : Prop :=
  ∀ names, allowed = none → allowed' = some names → ∀ e ∈ v.fields, e.1 ∈ identity ∨ e.1 ∈ names

/-- An update is the same under the wider model when its patch stays inside the new list. -/
theorem normalizeUpdate_widens {model : String} {allowed allowed' : Option (List String)} {v w : Json}
    (hallowed : ∀ names, allowed = some names → ∀ f ∈ names, ∃ names', allowed' = some names' ∧ f ∈ names')
    (hkept : ∀ m, O.model model = .ok m → PatchKept m.identity allowed allowed' v)
    (h : normalizeModelInput P O model .update allowed v = .ok w) :
    normalizeModelInput P N model .update allowed' v = .ok w := by
  obtain ⟨object, m, key, patch, rfl, hm, hkey, hpatch, hnames, rfl⟩ := normalizeUpdate_ok.1 h
  obtain ⟨m', hm', M⟩ := W.models model m hm
  refine normalizeUpdate_ok.2 ⟨object, m', key, patch, rfl, hm', ?_, ?_, ?_, rfl⟩
  · rw [M.identity]
    exact recordKey_widens W hkey
  · rw [M.identity]
    exact validatePatch_widens W hpatch
  · intro names' hnames' e he
    cases allowed with
    | some names =>
      obtain ⟨names'', hnames'', hmem⟩ := hallowed names rfl e.1 (hnames names rfl e he)
      cases hnames'.symm.trans hnames''
      exact hmem
    | none =>
      obtain ⟨_, es, -, hes, rfl⟩ := validatePatch_ok.1 hpatch
      rcases Fields.mem_extend he with he | he
      · obtain ⟨x, hx, hxe, -⟩ := forall₂_mem_right hes he
        obtain ⟨hx, hid⟩ := List.mem_filter.1 hx
        rcases hkept m hm names' rfl hnames' x hx with hin | hin
        · simp [hin] at hid
        · exact hxe ▸ hin
      · cases he

/-- An update that the wider model accepts stays inside the new list. -/
theorem normalizeUpdate_kept {model : String} {allowed allowed' : Option (List String)} {v w : Json} {m : ModelDescriptor}
    (hm : O.model model = .ok m) (h : normalizeModelInput P N model .update allowed' v = .ok w) :
    PatchKept m.identity allowed allowed' v := by
  obtain ⟨object, m', key, patch, rfl, hm', -, hpatch, hnames, rfl⟩ := normalizeUpdate_ok.1 h
  obtain ⟨m₁, hm₁, M⟩ := W.models model m hm
  cases hm'.symm.trans hm₁
  obtain ⟨_, es, -, hes, rfl⟩ := validatePatch_ok.1 hpatch
  intro names _ hallowed e he
  by_cases hid : e.1 ∈ m.identity
  · exact .inl hid
  · right
    have hin : e ∈ patchOf m'.identity object := List.mem_filter.2 ⟨he, by rw [M.identity]; simpa using hid⟩
    obtain ⟨x, hx, hxe, -⟩ := forall₂_mem_left hes hin
    obtain ⟨u, hu⟩ := Fields.mem_collected.2 ⟨x.2, hx⟩
    exact hxe ▸ hnames names hallowed (x.1, u) hu

end

end Axton
