import Axton.Core.Objects

/-!
# Normal forms as maps

What a normalizer returns, without the order in which it inserts: the map that holds, for each declared
name, the value computed for it and nothing else (`Collects`). There is one such map, so that two
normalizers that compute the same values return equal results.
-/

namespace Axton

/-- `out` is the map of the values computed for `xs`. -/
structure Collects {α : Type} (name : α → String) (val : α → Except String Json) (xs : List α) (out : Fields) : Prop where
  ordered : out.Ordered
  value : ∀ x ∈ xs, ∃ v, val x = .ok v ∧ Fields.get out (name x) = some v
  only : ∀ e ∈ out, ∃ x ∈ xs, name x = e.1

namespace Collects

variable {α β : Type} {name : α → String} {val : α → Except String Json} {xs : List α} {out : Fields}

theorem get_none (h : Collects name val xs out) {k : String} (hk : ∀ x ∈ xs, name x ≠ k) : Fields.get out k = none := by
  cases hg : Fields.get out k with
  | none => rfl
  | some v =>
    obtain ⟨x, hx, hname⟩ := h.only _ (Fields.mem_of_get hg)
    exact absurd hname (hk x hx)

/-- The values computed for `xs` and those for `ys` make the same map. -/
theorem congr {name' : β → String} {val' : β → Except String Json} {ys : List β} (h : Collects name val xs out)
    (hto : ∀ x ∈ xs, ∃ y ∈ ys, name' y = name x) (hfrom : ∀ y ∈ ys, ∃ x ∈ xs, name x = name' y ∧ val x = val' y) :
    Collects name' val' ys out := by
  refine ⟨h.ordered, fun y hy => ?_, fun e he => ?_⟩
  · obtain ⟨x, hx, hname, hval⟩ := hfrom y hy
    obtain ⟨v, hv, hget⟩ := h.value x hx
    exact ⟨v, hval ▸ hv, hname ▸ hget⟩
  · obtain ⟨x, hx, hname⟩ := h.only e he
    obtain ⟨y, hy, hyname⟩ := hto x hx
    exact ⟨y, hy, hyname.trans hname⟩

theorem unique {out' : Fields} (h : Collects name val xs out) (h' : Collects name val xs out') : out = out' := by
  refine h.ordered.ext_get h'.ordered fun k => ?_
  by_cases hk : ∃ x ∈ xs, name x = k
  · obtain ⟨x, hx, rfl⟩ := hk
    obtain ⟨v, hv, hget⟩ := h.value x hx
    obtain ⟨v', hv', hget'⟩ := h'.value x hx
    rw [hv, Except.ok.injEq] at hv'
    rw [hget, hget', hv']
  · have hnone : ∀ x ∈ xs, name x ≠ k := fun x hx hname => hk ⟨x, hx, hname⟩
    rw [h.get_none hnone, h'.get_none hnone]

/-- Inserting one entry per element builds the map. -/
theorem iff_collected (hn : (xs.map name).Nodup) :
    (∃ es : Fields, List.Forall₂ (fun x e => e.1 = name x ∧ val x = .ok e.2) xs es ∧ Fields.extend [] es = out) ↔
      Collects name val xs out := by
  have hbuilt {es : Fields} (hes : List.Forall₂ (fun x e => e.1 = name x ∧ val x = .ok e.2) xs es) :
      Collects name val xs (Fields.extend [] es) := by
    refine ⟨Fields.extend_ordered .nil es, fun x hx => ?_, fun e he => ?_⟩
    · obtain ⟨e, he, hname, hval⟩ := forall₂_mem_left hes hx
      rcases Fields.get_extend [] es (name x) with ⟨v, hv, hget⟩ | ⟨hno, -⟩
      · obtain ⟨x', hx', hname', hval'⟩ := forall₂_mem_right hes hv
        have hsame : x' = x := List.inj_on_of_nodup_map hn hx' hx hname'.symm
        exact ⟨v, hsame ▸ hval', hget⟩
      · exact absurd hname (hno e he)
    · rcases Fields.mem_extend he with he | he
      · obtain ⟨x, hx, hname, -⟩ := forall₂_mem_right hes he
        exact ⟨x, hx, hname.symm⟩
      · cases he
  constructor
  · rintro ⟨es, hes, rfl⟩
    exact hbuilt hes
  · intro h
    have hval (x : α) (hx : x ∈ xs) : ∃ e : String × Json, e.1 = name x ∧ val x = .ok e.2 := by
      obtain ⟨v, hv, -⟩ := h.value x hx
      exact ⟨(name x, v), rfl, hv⟩
    obtain ⟨es, hes⟩ := forall₂_exists hval
    exact ⟨es, hes, (hbuilt hes).unique h⟩

/-- Where every value can be computed there is a map of them. -/
theorem exists_of_values (hn : (xs.map name).Nodup) (h : ∀ x ∈ xs, ∃ v, val x = .ok v) : ∃ out, Collects name val xs out := by
  have hval (x : α) (hx : x ∈ xs) : ∃ e : String × Json, e.1 = name x ∧ val x = .ok e.2 := by
    obtain ⟨v, hv⟩ := h x hx
    exact ⟨(name x, v), rfl, hv⟩
  obtain ⟨es, hes⟩ := forall₂_exists hval
  exact ⟨_, (iff_collected hn).1 ⟨es, hes, rfl⟩⟩

end Collects

/-! ## The normalizers of a schema -/

/-- The fields outside the identity. -/
def ModelDescriptor.stateFields (m : ModelDescriptor) : List FieldDescriptor :=
  m.fields.filter fun f => !m.identity.contains f.name

theorem ModelDescriptor.mem_stateFields {m : ModelDescriptor} {f : FieldDescriptor} :
    f ∈ m.stateFields ↔ f ∈ m.fields ∧ f.name ∉ m.identity := by
  simp [stateFields]

theorem mem_of_model {S : Schema} {name : String} {m : ModelDescriptor} (h : S.model name = .ok m) :
    m ∈ S.models ∧ m.name = name := by
  unfold Schema.model at h
  cases hf : S.models.find? (·.name = name) with
  | none => simp [hf] at h
  | some n =>
    simp only [hf, Except.ok.injEq] at h
    subst h
    exact ⟨List.mem_of_find?_eq_some hf, by simpa using List.find?_some hf⟩

/-- What `validate` says of a declared model. -/
structure ValidModel (P : Platform) (S : Schema) (m : ModelDescriptor) : Prop where
  reserved : Schema.reservedModelName m.name = false
  fields : (m.fields.map (·.name)).Nodup
  field : ∀ f ∈ m.fields, S.validField P f = true
  identity : m.identity.Nodup
  named : ∀ n ∈ m.identity, Schema.validIdentity m n = true
  version : positive m.version = true

/-- What `validate` says of a schema. -/
structure ValidSchema (P : Platform) (S : Schema) : Prop where
  models : S.validModels P = true
  reads : (S.resultModels.map fun d => (d.name, d.version)).Nodup
  read : ∀ d ∈ S.resultModels, Schema.validRead P d = true
  action : ∀ a ∈ S.actions, S.validAction a = true

theorem valid_schema {P : Platform} {S : Schema} (h : S.validate P = true) : ValidSchema P S := by
  simp only [Schema.validate, Bool.and_eq_true, List.all_eq_true, decide_eq_true_eq] at h
  obtain ⟨⟨⟨⟨⟨⟨-, hmodels⟩, -⟩, hreads⟩, hread⟩, -⟩, haction⟩ := h
  exact ⟨hmodels, hreads, hread, haction⟩

theorem declared_model {P : Platform} {S : Schema} (h : S.validModels P = true) {m : ModelDescriptor} (hm : m ∈ S.models) :
    ValidModel P S m := by
  simp only [Schema.validModels, Bool.and_eq_true, List.all_eq_true] at h
  have hmodel := h.2 m hm
  simp only [Schema.validModel, Bool.and_eq_true, List.all_eq_true, decide_eq_true_eq, Bool.not_eq_true'] at hmodel
  obtain ⟨⟨⟨⟨⟨⟨⟨⟨⟨⟨hreserved, -⟩, -⟩, hversion⟩, hfields⟩, hfield⟩, hid⟩, hnamed⟩, -⟩, -⟩, -⟩ := hmodel
  exact ⟨hreserved, hfields, hfield, hid, hnamed, hversion⟩

theorem valid_model {P : Platform} {S : Schema} (h : S.validate P = true) {m : ModelDescriptor} (hm : m ∈ S.models) :
    ValidModel P S m :=
  declared_model (valid_schema h).models hm

theorem declared_names {P : Platform} {S : Schema} (h : S.validModels P = true) :
    (S.enums.map (·.name)).Nodup ∧ (S.models.map (·.name)).Nodup := by
  simp only [Schema.validModels, Bool.and_eq_true, decide_eq_true_eq] at h
  have hnames := h.1.2
  exact ⟨hnames.of_append_left, hnames.of_append_right⟩

theorem valid_names {P : Platform} {S : Schema} (h : S.validate P = true) :
    (S.enums.map (·.name)).Nodup ∧ (S.models.map (·.name)).Nodup :=
  declared_names (valid_schema h).models

/-- What `state` refuses to find in its input. -/
def StateNames (m : ModelDescriptor) (loader : Bool) (input : Fields) : Prop :=
  ∀ e ∈ input, if loader then ∃ f ∈ m.fields, f.name = e.1 else e.1 ∉ m.identity

section
variable {P : Platform} {S : Schema} {m : ModelDescriptor} {name : String} (hm : S.model name = .ok m)
include hm

theorem state_iff (hn : (m.fields.map (·.name)).Nodup) {v w : Json} {loader : Bool} :
    S.state P name v loader = .ok w ↔ ∃ input out, v = .obj input ∧ w = .obj out ∧ StateNames m loader input ∧
      Collects (·.name) (stateValue P S input) m.stateFields out := by
  have hns : (m.stateFields.map (·.name)).Nodup := List.Nodup.sublist (List.filter_sublist.map _) hn
  have hnames (input : Fields) : (input.any fun e => (loader && !(m.fields.any (·.name = e.1))) ||
      (!loader && m.identity.contains e.1)) = true ↔ ¬ StateNames m loader input := by
    cases loader <;> simp [StateNames]
  unfold Schema.state
  simp only [hm, bind_ok, Except.ok.injEq, exists_eq_left']
  constructor
  · intro h
    cases v with
    | obj input =>
      simp only [Json.asObject] at h
      split at h
      · cases h
      · rename_i hc
        simp only [bind_ok, pure_ok] at h
        obtain ⟨out, hout, rfl⟩ := h
        rw [hnames, not_not] at hc
        exact ⟨input, out, rfl, rfl, hc, (Collects.iff_collected hns).1 (stateFields_ok.1 hout)⟩
    | _ => simp [Json.asObject] at h
  · rintro ⟨input, out, rfl, rfl, hc, hout⟩
    have hno := fun hrefused => (hnames input).1 hrefused hc
    show (if _ then _ else _) = _
    rw [if_neg hno]
    simp only [bind_ok, pure_ok]
    exact ⟨out, stateFields_ok.2 ((Collects.iff_collected hns).2 hout), rfl⟩

theorem recordKey_iff (hn : m.identity.Nodup) {v : Json} {key : RecordKey} :
    S.recordKey P name v = .ok key ↔ ∃ input out, v = .obj input ∧ key = ⟨name, .obj out⟩ ∧
      input.length = m.identity.length ∧ (∀ e ∈ input, e.1 ∈ m.identity) ∧
      Collects (fun n => n) (identityValue P S m input) m.identity out := by
  have hns : (m.identity.map fun n => n).Nodup := by rwa [List.map_id']
  rw [recordKey_ok]
  constructor
  · rintro ⟨m', input, out, hm', rfl, hlen, hmem, hout, rfl⟩
    rw [hm, Except.ok.injEq] at hm'
    subst hm'
    exact ⟨input, out, rfl, rfl, hlen, hmem, (Collects.iff_collected hns).1 (identityFields_ok.1 hout)⟩
  · rintro ⟨input, out, rfl, rfl, hlen, hmem, hout⟩
    exact ⟨m, input, out, hm, rfl, hlen, hmem, identityFields_ok.2 ((Collects.iff_collected hns).2 hout), rfl⟩

theorem validatePatch_iff {input : Fields} (hn : input.Ordered) {w : Json} :
    S.validatePatch P name (.obj input) = .ok w ↔ ∃ out, w = .obj out ∧ Collects (·.1) (patchValue P S m) input out := by
  rw [validatePatch_ok]
  constructor
  · rintro ⟨m', es, hm', hes, rfl⟩
    rw [hm, Except.ok.injEq] at hm'
    subst hm'
    exact ⟨_, rfl, (Collects.iff_collected hn.names_nodup).1 ⟨es, hes, rfl⟩⟩
  · rintro ⟨out, rfl, hout⟩
    obtain ⟨es, hes, rfl⟩ := (Collects.iff_collected hn.names_nodup).2 hout
    exact ⟨m, es, hm, hes, rfl⟩

end

end Axton
