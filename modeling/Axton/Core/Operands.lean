import Axton.Core.Fixpoint

/-!
# Operands and arguments again

`normalize_model_input` splits an operand into its identity and the rest and reads them apart; what it returns is one map
of the values of all names (`create_iff`, `update_iff`). From that, which operands and arguments `normalize_action_args`
takes for themselves when they come back.
-/

namespace Axton

namespace Fields

/-- One step of `pick`. -/
def picked (fs acc : Fields) (n : String) : Fields := match get fs n with
  | some v => insert acc n v
  | none => acc

theorem get_pick {fs : Fields} {names : List String} (k : String) :
    get (fs.pick names) k = if k ∈ names then get fs k else none := by
  have hfrom : ∀ acc : Fields, get (names.foldl (picked fs) acc) k =
      if k ∈ names then (get fs k).or (get acc k) else get acc k := by
    induction names with
    | nil => simp
    | cons n names ih =>
      intro acc
      rw [List.foldl_cons, ih]
      unfold picked
      cases hn : get fs n with
      | none =>
        by_cases hk : k = n
        · subst hk
          simp [hn]
        · simp [hk]
      | some v =>
        by_cases hk : k = n
        · subst hk
          simp [hn, get_insert]
        · have hne : n ≠ k := fun h => hk h.symm
          simp [hk, get_insert, hne]
  have h := hfrom []
  have hnil : get [] k = none := rfl
  rw [hnil, Option.or_none] at h
  exact h

theorem pick_ordered (fs : Fields) (names : List String) : (fs.pick names).Ordered := by
  have hfrom : ∀ acc : Fields, acc.Ordered → (names.foldl (picked fs) acc).Ordered := by
    induction names with
    | nil => exact fun _ h => h
    | cons n names ih =>
      intro acc h
      rw [List.foldl_cons]
      refine ih _ ?_
      unfold picked
      cases get fs n with
      | none => exact h
      | some v => exact insert_ordered h n v
  exact hfrom [] .nil

theorem mem_pick {fs : Fields} {names : List String} {e : String × Json} (h : e ∈ fs.pick names) :
    e.1 ∈ names := by
  by_contra hno
  have hget := (pick_ordered fs names).get_of_mem h
  rw [get_pick, if_neg hno] at hget
  cases hget

end Fields

namespace Collects

variable {val : String → Except String Json} {ks ks' : List String} {a b out : Fields}

/-- Two maps of different names make one. -/
theorem join (h : Collects (fun k => k) val ks a) (h' : Collects (fun k => k) val ks' b)
    (hdisj : ∀ k ∈ ks, k ∉ ks') :
    Collects (fun k => k) val (ks ++ ks') (Fields.extend a b) := by
  refine ⟨Fields.extend_ordered h.ordered b, fun k hk => ?_, fun e he => ?_⟩
  · rw [h'.ordered.get_extend]
    rcases List.mem_append.1 hk with hk | hk
    · obtain ⟨v, hv, hget⟩ := h.value k hk
      have hnone : Fields.get b k = none := h'.get_none fun x hx hxk => by
        subst hxk
        exact hdisj x hk hx
      rw [hnone, Option.none_or]
      exact ⟨v, hv, hget⟩
    · obtain ⟨v, hv, hget⟩ := h'.value k hk
      rw [hget]
      exact ⟨v, hv, rfl⟩
  · rcases Fields.mem_extend he with he | he
    · obtain ⟨x, hx, hname⟩ := h'.only e he
      exact ⟨x, List.mem_append_right _ hx, hname⟩
    · obtain ⟨x, hx, hname⟩ := h.only e he
      exact ⟨x, List.mem_append_left _ hx, hname⟩

theorem exists_names (hn : ks.Nodup) (h : ∀ k ∈ ks, ∃ v, val k = .ok v) :
    ∃ out, Collects (fun k => k) val ks out :=
  exists_of_values (by rwa [List.map_id']) h

theorem join_iff (hn : (ks ++ ks').Nodup) : Collects (fun k => k) val (ks ++ ks') out ↔
    ∃ a b, Collects (fun k => k) val ks a ∧ Collects (fun k => k) val ks' b ∧ out = Fields.extend a b := by
  obtain ⟨hks, hks', hdisj⟩ := List.nodup_append.1 hn
  have hdisj : ∀ k ∈ ks, k ∉ ks' := fun k hk hk' => hdisj k hk k hk' rfl
  constructor
  · intro h
    obtain ⟨a, ha⟩ := exists_names hks fun k hk => by
      obtain ⟨v, hv, -⟩ := h.value k (List.mem_append_left _ hk)
      exact ⟨v, hv⟩
    obtain ⟨b, hb⟩ := exists_names hks' fun k hk => by
      obtain ⟨v, hv, -⟩ := h.value k (List.mem_append_right _ hk)
      exact ⟨v, hv⟩
    exact ⟨a, b, ha, hb, h.unique (ha.join hb hdisj)⟩
  · rintro ⟨a, b, ha, hb, rfl⟩
    exact ha.join hb hdisj

end Collects

/-! ## Operands -/

/-- The value of a name in a created record. -/
def createValue (P : Platform) (S : Schema) (m : ModelDescriptor) (object : Fields) (k : String) :
    Except String Json :=
  if k ∈ m.identity then identityValue P S m object k
  else match m.field k with
    | some f => stateValue P S object f
    | none => .error "unknown field"

/-- The value of a name in an update. -/
def updateValue (P : Platform) (S : Schema) (m : ModelDescriptor) (object : Fields) (k : String) :
    Except String Json :=
  if k ∈ m.identity then identityValue P S m object k
  else match Fields.get object k with
    | some v => patchValue P S m (k, v)
    | none => .error "absent field"

section
variable {m : ModelDescriptor}

theorem createNames_nodup (hid : m.identity.Nodup) (hn : (m.fields.map (·.name)).Nodup) :
(m.identity ++ m.stateFields.map (·.name)).Nodup := by
  refine List.nodup_append.2 ⟨hid, List.Nodup.sublist (List.filter_sublist.map _) hn, ?_⟩
  rintro k hk _ hk' rfl
  obtain ⟨f, hf, rfl⟩ := List.mem_map.1 hk'
  exact (m.mem_stateFields.1 hf).2 hk

theorem mem_patchOf {object : Fields} {e : String × Json} :
    e ∈ patchOf m.identity object ↔ e ∈ object ∧ e.1 ∉ m.identity := by
  simp [patchOf]

theorem patchOf_ordered {object : Fields} (ho : object.Ordered) : (patchOf m.identity object).Ordered :=
  List.Pairwise.sublist List.filter_sublist ho

theorem updateNames_nodup (hid : m.identity.Nodup) {object : Fields} (ho : object.Ordered) :
    (m.identity ++ (patchOf m.identity object).map (·.1)).Nodup := by
  refine List.nodup_append.2 ⟨hid, (patchOf_ordered ho).names_nodup, ?_⟩
  rintro k hk _ hk' rfl
  obtain ⟨e, he, rfl⟩ := List.mem_map.1 hk'
  exact (mem_patchOf.1 he).2 hk

end

section
variable {P : Platform} {S : Schema} {name : String} {m : ModelDescriptor} (hm : S.model name = .ok m)
  (hid : m.identity.Nodup)
include hm hid

/-- The key read from the identity fields of an operand. -/
theorem pickedKey_iff {object : Fields} {val : String → Except String Json}
    (hval : ∀ k ∈ m.identity, val k = identityValue P S m object k) {key : RecordKey} :
    S.recordKey P name (.obj (Fields.pick object m.identity)) = .ok key ↔
      ∃ out, key = ⟨name, .obj out⟩ ∧ Collects (fun k => k) val m.identity out := by
  have hsame : ∀ k ∈ m.identity, identityValue P S m (Fields.pick object m.identity) k = val k := by
    intro k hk
    rw [hval k hk]
    unfold identityValue
    rw [Fields.get_pick, if_pos hk]
  rw [recordKey_iff hm hid]
  constructor
  · rintro ⟨input, out, hin, rfl, -, -, hout⟩
    rw [Json.obj.injEq] at hin
    subst hin
    exact ⟨out, rfl, hout.congr (fun k hk => ⟨k, hk, rfl⟩) fun k hk => ⟨k, hk, rfl, hsame k hk⟩⟩
  · rintro ⟨out, rfl, hout⟩
    refine ⟨_, out, rfl, rfl, ?_, fun e he => Fields.mem_pick he,
      hout.congr (fun k hk => ⟨k, hk, rfl⟩) fun k hk =>
      ⟨k, hk, rfl, (hsame k hk).symm⟩⟩
    -- every identity field was found, so none is left out of the pick
    have hpicked : Collects (fun k => k) (fun k => match Fields.get object k with
        | some v => .ok v
        | none => .error "identity missing") m.identity (Fields.pick object m.identity) := by
      refine ⟨Fields.pick_ordered _ _, fun k hk => ?_, fun e he => ⟨e.1, Fields.mem_pick he, rfl⟩⟩
      obtain ⟨v, hv, -⟩ := hout.value k hk
      rw [hval k hk] at hv
      cases hg : Fields.get object k with
      | none =>
        unfold identityValue at hv
        cases hf : m.field k <;> simp [hf, hg] at hv
      | some u => exact ⟨u, rfl, by rw [Fields.get_pick, if_pos hk, hg]⟩
    exact hpicked.length_eq (by rwa [List.map_id'])

variable (hn : (m.fields.map (·.name)).Nodup)
include hn

/-- A created record is one map: its identity and every other declared field. -/
theorem create_iff {allowed : Option (List String)} {object : Fields} {w : Json} :
    normalizeModelInput P S name .create allowed (.obj object) = .ok w ↔ ∃ out, w = .obj out ∧
      (∀ e ∈ object, ∃ f ∈ m.fields, f.name = e.1) ∧
      Collects (fun k => k) (createValue P S m object) (m.identity ++ m.stateFields.map (·.name)) out := by
  have hkey (k : String) (hk : k ∈ m.identity) : createValue P S m object k = identityValue P S m object k := if_pos hk
  have hstate (f : FieldDescriptor) (hf : f ∈ m.stateFields) :
    createValue P S m object f.name = stateValue P S object f := by
    obtain ⟨hmem, hno⟩ := m.mem_stateFields.1 hf
    unfold createValue
    rw [if_neg hno, m.field_of_mem hn hmem]
  have hfields (out : Fields) : Collects (·.name) (stateValue P S object) m.stateFields out ↔
      Collects (fun k => k) (createValue P S m object) (m.stateFields.map (·.name)) out := by
    have hto : ∀ f ∈ m.stateFields, ∃ k ∈ m.stateFields.map (·.name), k = f.name ∧
      stateValue P S object f = createValue P S m object k :=
      fun f hf => ⟨f.name, List.mem_map_of_mem hf, rfl, (hstate f hf).symm⟩
    have hfrom : ∀ k ∈ m.stateFields.map (·.name), ∃ f ∈ m.stateFields, f.name = k ∧
      stateValue P S object f = createValue P S m object k := by
      intro k hk
      obtain ⟨f, hf, rfl⟩ := List.mem_map.1 hk
      exact ⟨f, hf, rfl, (hstate f hf).symm⟩
    constructor
    · refine fun h => h.congr (fun f hf => ?_) hfrom
      obtain ⟨k, hk, hname, -⟩ := hto f hf
      exact ⟨k, hk, hname⟩
    · refine fun h => h.congr (fun k hk => ?_) fun f hf => ?_
      · obtain ⟨f, hf, hname, -⟩ := hfrom k hk
        exact ⟨f, hf, hname⟩
      · obtain ⟨k, hk, hname, hval⟩ := hto f hf
        exact ⟨k, hk, hname, hval.symm⟩
  rw [normalizeCreate_ok]
  constructor
  · rintro ⟨_, m', key, st, ⟨⟩, hm', hk, hst, rfl⟩
    cases hm.symm.trans hm'
    obtain ⟨a, rfl, ha⟩ := (pickedKey_iff hm hid hkey).1 hk
    obtain ⟨_, b, ⟨⟩, rfl, hdecl, hb⟩ := (state_iff hm hn).1 hst
    exact ⟨_, rfl, hdecl, (Collects.join_iff (createNames_nodup hid hn)).2 ⟨a, b, ha, (hfields b).1 hb, rfl⟩⟩
  · rintro ⟨out, rfl, hdecl, hout⟩
    obtain ⟨a, b, ha, hb, rfl⟩ := (Collects.join_iff (createNames_nodup hid hn)).1 hout
    exact ⟨object, m, ⟨name, .obj a⟩, .obj b, rfl, hm, (pickedKey_iff hm hid hkey).2 ⟨a, rfl, ha⟩,
      (state_iff hm hn).2 ⟨object, b, rfl, rfl, hdecl, (hfields b).2 hb⟩, rfl⟩

omit hn in
/-- An update is one map: its identity and the other entries of the operand. -/
theorem update_iff {allowed : Option (List String)} {object : Fields} (ho : object.Ordered) {w : Json} :
    normalizeModelInput P S name .update allowed (.obj object) = .ok w ↔ ∃ out, w = .obj out ∧
      (∀ names, allowed = some names → ∀ e ∈ object, e.1 ∉ m.identity → e.1 ∈ names) ∧
      Collects (fun k => k) (updateValue P S m object) (m.identity ++ (patchOf m.identity object).map (·.1)) out := by
  have hkey (k : String) (hk : k ∈ m.identity) : updateValue P S m object k = identityValue P S m object k := if_pos hk
  have hpatch (e : String × Json) (he : e ∈ patchOf m.identity object) :
    updateValue P S m object e.1 = patchValue P S m e := by
    obtain ⟨hmem, hno⟩ := mem_patchOf.1 he
    unfold updateValue
    rw [if_neg hno, ho.get_of_mem hmem]
  have hentries (out : Fields) : Collects (·.1) (patchValue P S m) (patchOf m.identity object) out ↔
      Collects (fun k => k) (updateValue P S m object) ((patchOf m.identity object).map (·.1)) out := by
    constructor
    · refine fun h => h.congr (fun e he => ⟨e.1, List.mem_map_of_mem he, rfl⟩) fun k hk => ?_
      obtain ⟨e, he, rfl⟩ := List.mem_map.1 hk
      exact ⟨e, he, rfl, (hpatch e he).symm⟩
    · refine fun h => h.congr (fun k hk => ?_) fun e he => ⟨e.1, List.mem_map_of_mem he, rfl, hpatch e he⟩
      obtain ⟨e, he, rfl⟩ := List.mem_map.1 hk
      exact ⟨e, he, rfl⟩
  -- the entries of the patch are those of the operand outside the identity
  have hallowed {b : Fields} (hb : Collects (·.1) (patchValue P S m) (patchOf m.identity object) b) :
      (∀ names, allowed = some names → ∀ e ∈ b, e.1 ∈ names) ↔
        ∀ names, allowed = some names → ∀ e ∈ object, e.1 ∉ m.identity → e.1 ∈ names := by
    refine forall₂_congr fun names _ => ⟨fun h e he hno => ?_, fun h e he => ?_⟩
    · obtain ⟨v, -, hget⟩ := hb.value e (mem_patchOf.2 ⟨he, hno⟩)
      exact h (e.1, v) (Fields.mem_of_get hget)
    · obtain ⟨x, hx, hname⟩ := hb.only e he
      obtain ⟨hmem, hno⟩ := mem_patchOf.1 hx
      have hname : x.1 = e.1 := hname
      rw [← hname]
      exact h x hmem hno
  rw [normalizeUpdate_ok]
  constructor
  · rintro ⟨_, m', key, patch, ⟨⟩, hm', hk, hp, hall, rfl⟩
    cases hm.symm.trans hm'
    obtain ⟨a, rfl, ha⟩ := (pickedKey_iff hm hid hkey).1 hk
    obtain ⟨b, rfl, hb⟩ := (validatePatch_iff hm (patchOf_ordered ho)).1 hp
    exact ⟨_, rfl, (hallowed hb).1 hall,
      (Collects.join_iff (updateNames_nodup hid ho)).2 ⟨a, b, ha, (hentries b).1 hb, rfl⟩⟩
  · rintro ⟨out, rfl, hall, hout⟩
    obtain ⟨a, b, ha, hb, rfl⟩ := (Collects.join_iff (updateNames_nodup hid ho)).1 hout
    have hb := (hentries b).2 hb
    exact ⟨object, m, ⟨name, .obj a⟩, .obj b, rfl, hm, (pickedKey_iff hm hid hkey).2 ⟨a, rfl, ha⟩,
      (validatePatch_iff hm (patchOf_ordered ho)).2 ⟨b, rfl, hb⟩, (hallowed hb).2 hall, rfl⟩

end

theorem fieldsKept_get {year : String → Int} {value : Rat → Rat} {m : ModelDescriptor}
    (hn : (m.fields.map (·.name)).Nodup)
    {object : Fields} : FieldsKept year value m.fields object ↔
      ∀ k f, m.field k = some f → ∀ v, Fields.get object k = some v → TypeKept year value f.valueType v := by
  constructor
  · intro h k f hf v hv
    obtain ⟨hmem, rfl⟩ := m.mem_of_field hf
    exact h f hmem v hv
  · intro h f hf v hv
    exact h f.name f (m.field_of_mem hn hf) v hv

theorem Collects.names_congr {val : String → Except String Json} {ks ks' : List String} {out : Fields}
    (h : ∀ k, k ∈ ks ↔ k ∈ ks') : Collects (fun k => k) val ks out ↔ Collects (fun k => k) val ks' out := by
  constructor
  · exact fun hc => hc.congr (fun k hk => ⟨k, (h k).1 hk, rfl⟩) fun k hk => ⟨k, (h k).2 hk, rfl, rfl⟩
  · exact fun hc => hc.congr (fun k hk => ⟨k, (h k).2 hk, rfl⟩) fun k hk => ⟨k, (h k).1 hk, rfl, rfl⟩

section
variable {P : Platform} (C : Chrono P) {value : Rat → Rat} (hint : IntegersRead value)
variable {S : Schema} {m : ModelDescriptor} {object out : Fields} (hv : (Json.obj object).Held)
include hint hv

theorem createValue_again {k : String} {u : Json} (h : createValue P S m object k = .ok u)
    (hget : Fields.get out k = some u) : createValue P S m (out.readAs value) k = .ok u ↔
      ∀ f, m.field k = some f → ∀ v, Fields.get object k = some v → TypeKept C.year value f.valueType v := by
  unfold createValue at h ⊢
  split at h
  · rename_i hk
    rw [if_pos hk]
    exact identityValue_again C hint hv h hget
  · rename_i hk
    rw [if_neg hk]
    cases hf : m.field k with
    | none => simp [hf] at h
    | some f =>
      obtain ⟨-, rfl⟩ := m.mem_of_field hf
      simp only [hf] at h
      simp only [Option.some.injEq, forall_eq']
      exact stateValue_again C hint hv h hget

theorem updateValue_again {k : String} {u : Json} (h : updateValue P S m object k = .ok u)
    (hget : Fields.get out k = some u) : updateValue P S m (out.readAs value) k = .ok u ↔
      ∀ f, m.field k = some f → ∀ v, Fields.get object k = some v → TypeKept C.year value f.valueType v := by
  unfold updateValue at h ⊢
  split at h
  · rename_i hk
    rw [if_pos hk]
    exact identityValue_again C hint hv h hget
  · rename_i hk
    rw [if_neg hk]
    cases hg : Fields.get object k with
    | none => simp [hg] at h
    | some v =>
      simp only [hg] at h
      simp only [Fields.readAs, Fields.get_map, hget, Option.map_some, Option.some.injEq, forall_eq']
      exact patchValue_again C hint hv (e := (k, v)) (Fields.mem_of_get hg) h

end

section
variable {P : Platform} (C : Chrono P) {value : Rat → Rat} (hint : IntegersRead value)
variable {S : Schema} {name : String} {m : ModelDescriptor} (hm : S.model name = .ok m)
  (hid : m.identity.Nodup) (hn : (m.fields.map (·.name)).Nodup) {allowed : Option (List String)}
    {v w : Json} (hv : v.Held)
include hint hm hid hn hv

theorem create_again (h : normalizeModelInput P S name .create allowed v = .ok w) :
    normalizeModelInput P S name .create allowed (w.readAs value) = .ok w ↔
    FieldsKept C.year value m.fields v.fields := by
  obtain ⟨object, -, -, -, rfl, -⟩ := normalizeCreate_ok.1 h
  obtain ⟨out, rfl, -, hout⟩ := (create_iff hm hid hn).1 h
  have hnamed (k : String) (hk : k ∈ m.identity ++ m.stateFields.map (·.name)) : ∃ f ∈ m.fields,
    f.name = k := by
    rcases List.mem_append.1 hk with hid' | hst
    · obtain ⟨u, hu, -⟩ := hout.value k hk
      rw [createValue, if_pos hid'] at hu
      unfold identityValue at hu
      cases hf : m.field k with
      | none => simp [hf] at hu
      | some f => exact ⟨f, m.mem_of_field hf⟩
    · obtain ⟨f, hf, rfl⟩ := List.mem_map.1 hst
      exact ⟨f, (m.mem_stateFields.1 hf).1, rfl⟩
  have hdecl : ∀ e ∈ Fields.readAs value out, ∃ f ∈ m.fields, f.name = e.1 := by
    intro e he
    obtain ⟨u, hu, -⟩ := Fields.mem_readAs.1 he
    obtain ⟨k, hk, rfl⟩ := hout.only _ hu
    exact hnamed _ hk
  have hsplit : (∃ out', Json.obj out = .obj out' ∧ (∀ e ∈ Fields.readAs value out, ∃ f ∈ m.fields,
    f.name = e.1) ∧
      Collects (fun k => k) (createValue P S m (Fields.readAs value out))
      (m.identity ++ m.stateFields.map (·.name)) out') ↔
      Collects (fun k => k) (createValue P S m (Fields.readAs value out))
      (m.identity ++ m.stateFields.map (·.name)) out := by
    constructor
    · rintro ⟨_, ⟨⟩, -, h⟩
      exact h
    · exact fun h => ⟨_, rfl, hdecl, h⟩
  rw [Fields.readAs_obj value hout.ordered, create_iff hm hid hn, hsplit, hout.again, Json.fields_obj,
    fieldsKept_get hn]
  constructor
  · intro hall k f hf x hx
    have hk : k ∈ m.identity ++ m.stateFields.map (·.name) := by
      obtain ⟨hmem, rfl⟩ := m.mem_of_field hf
      by_cases hid' : f.name ∈ m.identity
      · exact List.mem_append_left _ hid'
      · exact List.mem_append_right _ (List.mem_map_of_mem (m.mem_stateFields.2 ⟨hmem, hid'⟩))
    obtain ⟨u, hu, hget⟩ := hout.value k hk
    exact (createValue_again C hint hv hu hget).1 (hall k hk u hu) f hf x hx
  · intro hkept k hk u hu
    obtain ⟨u', hu', hget⟩ := hout.value k hk
    rw [hu, Except.ok.injEq] at hu'
    exact (createValue_again C hint hv hu (hu' ▸ hget)).2 (hkept k)

theorem update_again (h : normalizeModelInput P S name .update allowed v = .ok w) :
    normalizeModelInput P S name .update allowed (w.readAs value) = .ok w ↔
    FieldsKept C.year value m.fields v.fields := by
  obtain ⟨object, -, -, -, rfl, -⟩ := normalizeUpdate_ok.1 h
  have ho : Fields.Ordered object := (Json.held_obj.1 hv).1
  obtain ⟨out, rfl, hallowed, hout⟩ := (update_iff hm hid ho).1 h
  have hread : (Fields.readAs value out).Ordered := Fields.readAs_ordered hout.ordered
  -- the operand that is read back has the names of the first
  have hnames (k : String) : k ∈ m.identity ++ (patchOf m.identity (Fields.readAs value out)).map (·.1) ↔
      k ∈ m.identity ++ (patchOf m.identity object).map (·.1) := by
    rw [List.mem_append, List.mem_append, or_congr_right']
    intro hk
    simp only [List.mem_map, mem_patchOf]
    constructor
    · rintro ⟨e, ⟨he, hno⟩, rfl⟩
      obtain ⟨u, hu, -⟩ := Fields.mem_readAs.1 he
      obtain ⟨k, hk', rfl⟩ := hout.only _ hu
      rcases List.mem_append.1 hk' with hk' | hk'
      · exact absurd hk' hk
      · obtain ⟨x, hx, hname⟩ := List.mem_map.1 hk'
        exact ⟨x, mem_patchOf.1 hx, hname⟩
    · rintro ⟨e, ⟨he, hno⟩, rfl⟩
      have hk' : e.1 ∈ m.identity ++ (patchOf m.identity object).map (·.1) :=
        List.mem_append_right _ (List.mem_map_of_mem (mem_patchOf.2 ⟨he, hno⟩))
      obtain ⟨u, -, hget⟩ := hout.value _ hk'
      exact ⟨(e.1, u.readAs value), ⟨Fields.mem_readAs.2 ⟨u, Fields.mem_of_get hget, rfl⟩, hno⟩, rfl⟩
  have hallowed' : ∀ names, allowed = some names → ∀ e ∈ Fields.readAs value out, e.1 ∉ m.identity →
    e.1 ∈ names := by
    intro names hn' e he hno
    obtain ⟨u, hu, -⟩ := Fields.mem_readAs.1 he
    obtain ⟨k, hk, rfl⟩ := hout.only _ hu
    rcases List.mem_append.1 hk with hk | hk
    · exact absurd hk hno
    · obtain ⟨x, hx, hname⟩ := List.mem_map.1 hk
      have hname : x.1 = e.1 := hname
      obtain ⟨hmem, hxno⟩ := mem_patchOf.1 hx
      exact hname ▸ hallowed names hn' x hmem hxno
  have hsplit : (∃ out', Json.obj out = .obj out' ∧
      (∀ names, allowed = some names → ∀ e ∈ Fields.readAs value out, e.1 ∉ m.identity → e.1 ∈ names) ∧
      Collects (fun k => k) (updateValue P S m (Fields.readAs value out))
        (m.identity ++ (patchOf m.identity (Fields.readAs value out)).map (·.1)) out') ↔
      Collects (fun k => k) (updateValue P S m (Fields.readAs value out))
        (m.identity ++ (patchOf m.identity object).map (·.1)) out := by
    rw [← Collects.names_congr hnames]
    constructor
    · rintro ⟨_, ⟨⟩, -, h⟩
      exact h
    · exact fun h => ⟨_, rfl, hallowed', h⟩
  rw [Fields.readAs_obj value hout.ordered, update_iff hm hid hread, hsplit, hout.again,
    Json.fields_obj, fieldsKept_get hn]
  constructor
  · intro hall k f hf x hx
    have hk : k ∈ m.identity ++ (patchOf m.identity object).map (·.1) := by
      by_cases hid' : k ∈ m.identity
      · exact List.mem_append_left _ hid'
      · exact List.mem_append_right _ (List.mem_map_of_mem (mem_patchOf.2 ⟨Fields.mem_of_get hx, hid'⟩))
    obtain ⟨u, hu, hget⟩ := hout.value k hk
    exact (updateValue_again C hint hv hu hget).1 (hall k hk u hu) f hf x hx
  · intro hkept k hk u hu
    obtain ⟨u', hu', hget⟩ := hout.value k hk
    rw [hu, Except.ok.injEq] at hu'
    exact (updateValue_again C hint hv hu (hu' ▸ hget)).2 (hkept k)

theorem delete_again (h : normalizeModelInput P S name .delete allowed v = .ok w) :
    normalizeModelInput P S name .delete allowed (w.readAs value) = .ok w ↔
    FieldsKept C.year value m.fields v.fields := by
  obtain ⟨object, key, rfl, hkey, hlen, rfl⟩ := normalizeDelete_ok.1 h
  rw [← recordKey_again C hint hm hn hv hid hkey, normalizeDelete_ok]
  obtain ⟨input, out, -, rfl, -, -, hout⟩ := (recordKey_iff hm hid).1 hkey
  have hread := Fields.readAs_obj value hout.ordered
  constructor
  · rintro ⟨object', key', hobj, hkey', -, heq⟩
    obtain ⟨-, out', -, rfl, -⟩ := (recordKey_iff hm hid).1 hkey'
    rw [hkey']
    exact congrArg (fun i => Except.ok (RecordKey.mk name i)) heq.symm
  · intro hkey'
    refine ⟨_, _, hread, hkey', ?_, rfl⟩
    simp [Fields.readAs, Json.fields_obj]

theorem modelInput_again {operation : OperationKind} (h : normalizeModelInput P S name operation allowed v = .ok w) :
    normalizeModelInput P S name operation allowed (w.readAs value) = .ok w ↔
    FieldsKept C.year value m.fields v.fields := by
  cases operation with
  | create => exact create_again C hint hm hid hn hv h
  | update => exact update_again C hint hm hid hn hv h
  | delete => exact delete_again C hint hm hid hn hv h

end

/-! ## What operands return -/

theorem Collects.tame {α : Type} {name : α → String} {val : α → Except String Json} {xs : List α} {out : Fields}
    (h : Collects name val xs out) (hval : ∀ x ∈ xs, ∀ v, val x = .ok v → v.Tame) : (Json.obj out).Tame := by
  refine Json.tame_obj h.ordered fun e he => ?_
  obtain ⟨x, hx, hname⟩ := h.only e he
  obtain ⟨v, hv, hget⟩ := h.value x hx
  rw [hname, h.ordered.get_of_mem he, Option.some.injEq] at hget
  exact hget ▸ hval x hx v hv

section
variable {P : Platform} {S : Schema} {m : ModelDescriptor} {object : Fields} (hv : (Json.obj object).Held)
include hv

theorem identityValue_tame {k : String} {u : Json} (h : identityValue P S m object k = .ok u) : u.Tame := by
  unfold identityValue at h
  cases hf : m.field k with
  | none => simp [hf] at h
  | some f =>
    cases hk : Fields.get object k with
    | none => simp [hf, hk] at h
    | some v =>
      simp only [hf, hk] at h
      exact normalizeValue_tame (Json.held_get hv hk) h

theorem stateValue_tame {f : FieldDescriptor} {u : Json} (h : stateValue P S object f = .ok u) : u.Tame := by
  unfold stateValue at h
  cases hf : Fields.get object f.name with
  | some v =>
    simp only [hf] at h
    exact normalizeValue_tame (Json.held_get hv hf) h
  | none =>
    simp only [hf] at h
    split at h
    · exact normalizeValue_tame (v := .null) trivial h
    · cases h

theorem patchValue_tame {e : String × Json} (he : e ∈ object) {u : Json}
    (h : patchValue P S m e = .ok u) : u.Tame := by
  unfold patchValue at h
  split at h
  · cases h
  · cases hf : m.field e.1 with
    | none => simp [hf] at h
    | some f =>
      simp only [hf] at h
      exact normalizeValue_tame ((Json.held_obj.1 hv).2 e he) h

theorem createValue_tame {k : String} {u : Json} (h : createValue P S m object k = .ok u) : u.Tame := by
  unfold createValue at h
  split at h
  · exact identityValue_tame hv h
  · cases hf : m.field k with
    | none => simp [hf] at h
    | some f =>
      simp only [hf] at h
      exact stateValue_tame hv h

theorem updateValue_tame {k : String} {u : Json} (h : updateValue P S m object k = .ok u) : u.Tame := by
  unfold updateValue at h
  split at h
  · exact identityValue_tame hv h
  · cases hg : Fields.get object k with
    | none => simp [hg] at h
    | some v =>
      simp only [hg] at h
      exact patchValue_tame hv (Fields.mem_of_get hg) h

end

section
variable {P : Platform} {S : Schema} {name : String} {m : ModelDescriptor} (hm : S.model name = .ok m)
  (hid : m.identity.Nodup) (hn : (m.fields.map (·.name)).Nodup) {allowed : Option (List String)}
    {v w : Json} (hv : v.Held)
include hm hv

theorem recordKey_tame (hid : m.identity.Nodup) {key : RecordKey}
    (h : S.recordKey P name v = .ok key) : key.identity.Tame := by
  obtain ⟨input, out, rfl, rfl, -, -, hout⟩ := (recordKey_iff hm hid).1 h
  exact hout.tame fun _ _ _ hu => identityValue_tame hv hu

theorem state_tame (hn : (m.fields.map (·.name)).Nodup) {loader : Bool}
    (h : S.state P name v loader = .ok w) : w.Tame := by
  obtain ⟨input, out, rfl, rfl, -, hout⟩ := (state_iff hm hn).1 h
  exact hout.tame fun _ _ _ hu => stateValue_tame hv hu

theorem validatePatch_tame (h : S.validatePatch P name v = .ok w) : w.Tame := by
  obtain ⟨input, rfl⟩ := patch_object h
  obtain ⟨out, rfl, hout⟩ := (validatePatch_iff hm (Json.held_obj.1 hv).1).1 h
  exact hout.tame fun _ he _ hu => patchValue_tame hv he hu

include hid hn

theorem modelInput_tame {operation : OperationKind} (h : normalizeModelInput P S name operation allowed v = .ok w) :
    w.Tame ∧ w.isNull = false := by
  cases operation with
  | create =>
    obtain ⟨object, -, -, -, rfl, -⟩ := normalizeCreate_ok.1 h
    obtain ⟨out, rfl, -, hout⟩ := (create_iff hm hid hn).1 h
    exact ⟨hout.tame fun _ _ _ hu => createValue_tame hv hu, rfl⟩
  | update =>
    obtain ⟨object, -, -, -, rfl, -⟩ := normalizeUpdate_ok.1 h
    obtain ⟨out, rfl, -, hout⟩ := (update_iff hm hid (Json.held_obj.1 hv).1).1 h
    exact ⟨hout.tame fun _ _ _ hu => updateValue_tame hv hu, rfl⟩
  | delete =>
    obtain ⟨object, key, rfl, hkey, -, rfl⟩ := normalizeDelete_ok.1 h
    obtain ⟨_, out, -, rfl, -⟩ := (recordKey_iff hm hid).1 hkey
    exact ⟨recordKey_tame hm hv hid hkey, rfl⟩

end

/-! ## Operands and their normal forms -/

theorem Fields.pick_map (g : Json → Json) (fs : Fields) (names : List String) :
    Fields.pick (fs.map fun e => (e.1, g e.2)) names = (Fields.pick fs names).map fun e => (e.1, g e.2) := by
  refine (pick_ordered _ names).ext_get (ordered_map g (pick_ordered fs names)) fun k => ?_
  rw [get_pick, get_map, get_map, get_pick]
  split <;> rfl

theorem patchOf_map (g : Json → Json) (identity : List String) (fs : Fields) :
    patchOf identity (fs.map fun e => (e.1, g e.2)) = (patchOf identity fs).map fun e => (e.1, g e.2) := by
  rw [patchOf, List.filter_map]
  rfl

theorem Json.keyed_pick {fs : Fields} (h : (Json.obj fs).Keyed) (names : List String) :
    (Json.obj (fs.pick names)).Keyed := by
  refine Json.keyed_obj.2 ⟨Fields.pick_ordered _ _, fun e he => ?_⟩
  have hget := (Fields.pick_ordered fs names).get_of_mem he
  rw [Fields.get_pick, if_pos (Fields.mem_pick he)] at hget
  exact (Json.keyed_obj.1 h).2 _ (Fields.mem_of_get hget)

theorem Json.keyed_patchOf {fs : Fields} (h : (Json.obj fs).Keyed) (identity : List String) :
    (Json.obj (patchOf identity fs)).Keyed := by
  obtain ⟨ho, hall⟩ := Json.keyed_obj.1 h
  exact Json.keyed_obj.2 ⟨List.Pairwise.sublist List.filter_sublist ho, fun e he =>
    hall e (List.mem_of_mem_filter he)⟩

theorem normalizeModelInput_normal {P : Platform} {S : Schema} {name : String} {operation : OperationKind}
    {allowed : Option (List String)} {v : Json} (h : v.Keyed) :
    normalizeModelInput P S name operation allowed v.normal = normalizeModelInput P S name operation allowed v := by
  cases v with
  | obj object =>
    have hnormal := Json.normal_obj (Json.keyed_obj.1 h).1
    have hkey (names : List String) : S.recordKey P name
      (.obj (Fields.pick (object.map fun e => (e.1, e.2.normal)) names)) =
        S.recordKey P name (.obj (Fields.pick object names)) := by
      rw [Fields.pick_map, ← Json.normal_obj (Fields.pick_ordered _ _),
        recordKey_normal (Json.keyed_pick h names)]
    have hpatch (identity : List String) :
        S.validatePatch P name (.obj (patchOf identity (object.map fun e => (e.1, e.2.normal)))) =
          S.validatePatch P name (.obj (patchOf identity object)) := by
      rw [patchOf_map, ← Json.normal_obj (Json.keyed_obj.1 (Json.keyed_patchOf h identity)).1,
        validatePatch_normal (Json.keyed_patchOf h identity)]
    have hstate : S.normalizeState P name (.obj (object.map fun e => (e.1, e.2.normal))) =
      S.normalizeState P name (.obj object) := by
      rw [← hnormal]
      exact state_normal h true
    rw [hnormal]
    cases operation with
    | create => simp only [normalizeModelInput, Json.asObject, hkey, hstate]
    | update =>
      simp only [patchOf] at hpatch
      simp only [normalizeModelInput, Json.asObject, hkey, hpatch]
    | delete =>
      have hwhole : S.recordKey P name (.obj (object.map fun e => (e.1, e.2.normal))) =
        S.recordKey P name (.obj object) := by
        rw [← hnormal, recordKey_normal h]
      simp only [normalizeModelInput, Json.asObject, hwhole, List.length_map]
  | _ => cases operation <;> rfl

/-! ## Cardinalities -/

section
variable {cardinality : Cardinality} {one : Json → Except String Json} {v w : Json}

theorem normalizeCardinality_normal (hone : ∀ x : Json, x.Keyed → one x.normal = one x) (h : v.Keyed) :
    normalizeCardinality cardinality v.normal one = normalizeCardinality cardinality v one := by
  cases cardinality with
  | single => exact hone v h
  | optional =>
    unfold normalizeCardinality
    rw [isNull_normal, hone v h]
  | list =>
    unfold normalizeCardinality
    cases v with
    | arr xs =>
      have hall := Json.keyed_arr.1 h
      simp only [Json.normal, Json.normalItems_eq, Json.asArray, List.mapM_map]
      congr 1
      clear h
      induction xs with
      | nil => rfl
      | cons x xs ih =>
        simp only [List.mapM_cons, Function.comp_apply, hone x (hall x (by simp))]
        rw [ih fun y hy => hall y (by simp [hy])]
    | _ => rfl

/-- What each operand returned is the operand of the whole. -/
theorem normalizeCardinality_tame (hone : ∀ x y : Json, x.Held → one x = .ok y → y.Tame) (hv : v.Held)
    (h : normalizeCardinality cardinality v one = .ok w) : w.Tame := by
  unfold normalizeCardinality at h
  cases cardinality with
  | single => exact hone v w hv h
  | optional =>
    simp only at h
    split at h
    · cases h
      exact ⟨trivial, trivial⟩
    · exact hone v w hv h
  | list =>
    cases v with
    | arr xs =>
      simp only [Json.asArray, map_ok, mapM_ok] at h
      obtain ⟨ys, hys, rfl⟩ := h
      have hall : ∀ y ∈ ys, y.Tame := by
        intro y hy
        obtain ⟨x, hx, hxy⟩ := forall₂_mem_right hys hy
        exact hone x y (Json.held_arr.1 hv x hx) hxy
      exact ⟨Json.keyed_arr.2 fun y hy => (hall y hy).1, Json.safe_arr.2 fun y hy => (hall y hy).2⟩
    | _ => simp [Json.asArray] at h

theorem normalizeCardinality_again (value : Rat → Rat) {kept : Json → Prop}
    (hone : ∀ x y : Json, x.Held → one x = .ok y → y.isNull = false ∧
    (one (y.readAs value) = .ok y ↔ kept x)) (hv : v.Held)
    (h : normalizeCardinality cardinality v one = .ok w) :
    normalizeCardinality cardinality (w.readAs value) one = .ok w ↔
      ∀ xs, operands cardinality v = .ok xs → ∀ x ∈ xs, kept x := by
  unfold normalizeCardinality at h ⊢
  cases cardinality with
  | single =>
    simp only [operands, Except.ok.injEq, forall_eq', List.mem_singleton, forall_eq]
    exact (hone v w hv h).2
  | optional =>
    simp only at h ⊢
    rw [isNull_readAs]
    split at h
    · rename_i hnull
      cases h
      have hnone : operands .optional v = .ok [] := by simp [operands, hnull]
      simp [Json.isNull, hnone]
    · rename_i hnull
      obtain ⟨hw, hkept⟩ := hone v w hv h
      simp only [hw, Bool.false_eq_true, if_false, operands, hnull, Except.ok.injEq, forall_eq',
        List.mem_singleton, forall_eq]
      exact hkept
  | list =>
    cases v with
    | arr xs =>
      simp only [Json.asArray, map_ok, mapM_ok] at h
      obtain ⟨ys, hys, rfl⟩ := h
      have hall := Json.held_arr.1 hv
      simp only [operands, Json.readAs, Json.readAsItems_eq, Json.asArray, map_ok, Json.arr.injEq,
        exists_eq_right, mapM_ok,
        List.forall₂_map_left_iff, Except.ok.injEq, forall_eq']
      clear hv
      induction hys with
      | nil => simp
      | @cons x y xs ys hxy _ ih =>
        have hrest := ih fun z hz => hall z (List.mem_cons_of_mem _ hz)
        rw [List.forall₂_cons, List.forall_mem_cons]
        exact and_congr (hone x y (hall x List.mem_cons_self) hxy).2 hrest
    | _ => simp [Json.asArray] at h

end

/-! ## Arguments -/

/-- The names of a model's fields are distinct, and its identity names each field once. -/
def Schema.Distinct (S : Schema) : Prop := ∀ m ∈ S.models, m.identity.Nodup ∧ (m.fields.map (·.name)).Nodup

theorem valid_distinct {P : Platform} {S : Schema} (h : S.validate P = true) : S.Distinct := fun _ hm =>
  ⟨(valid_model h hm).identity, (valid_model h hm).fields⟩

section
variable {P : Platform} (C : Chrono P) {value : Rat → Rat} (hint : IntegersRead value)
variable {S : Schema} (hS : S.Distinct)

theorem normalizeInput_normal {i : ActionInput} {v : Json} (h : v.Keyed) :
    normalizeInput P S i v.normal = normalizeInput P S i v := by
  cases i with
  | value name ty nullable list => exact normalizeValue_normal _ v
  | model name model operation cardinality allowed bindings =>
    exact normalizeCardinality_normal (fun x hx => normalizeModelInput_normal hx) h

include hS in
theorem modelInput_returned {model : String} {operation : OperationKind}
    {allowed : Option (List String)} {x y : Json}
    (hx : x.Held) (h : normalizeModelInput P S model operation allowed x = .ok y) :
    y.Tame ∧ y.isNull = false := by
  obtain ⟨m, hm⟩ := normalizeModelInput_model h
  obtain ⟨hid, hn⟩ := hS m (mem_of_model hm).1
  exact modelInput_tame hm hid hn hx h

include hS in
theorem normalizeInput_tame {i : ActionInput} {v w : Json} (hv : v.Held)
    (h : normalizeInput P S i v = .ok w) : w.Tame := by
  cases i with
  | value name ty nullable list => exact normalizeValue_tame hv h
  | model name model operation cardinality allowed bindings =>
    exact normalizeCardinality_tame (fun x y hx hy => (modelInput_returned hS hx hy).1) hv h

include hint hS

theorem normalizeInput_again {i : ActionInput} {v w : Json} (hv : v.Held) (h : normalizeInput P S i v = .ok w) :
    normalizeInput P S i (w.readAs value) = .ok w ↔ OperandsKept C.year value S i v := by
  cases i with
  | value name ty nullable list => exact normalizeValue_again C hint hv h
  | model name model operation cardinality allowed bindings =>
    have hone : ∀ x y : Json, x.Held → normalizeModelInput P S model operation allowed x = .ok y →
      y.isNull = false ∧
        (normalizeModelInput P S model operation allowed (y.readAs value) = .ok y ↔
          ∀ m, S.model model = .ok m → FieldsKept C.year value m.fields x.fields) := by
      intro x y hx hy
      obtain ⟨m, hm⟩ := normalizeModelInput_model hy
      obtain ⟨hid, hn⟩ := hS m (mem_of_model hm).1
      refine ⟨(modelInput_tame hm hid hn hx hy).2, ?_⟩
      rw [modelInput_again C hint hm hid hn hx hy]
      simp [hm]
    have hwhole := normalizeCardinality_again value hone hv h
    have hkept : OperandsKept C.year value S (.model name model operation cardinality allowed bindings) v ↔
        ∀ xs, operands cardinality v = .ok xs → ∀ x ∈ xs, ∀ m, S.model model = .ok m →
          FieldsKept C.year value m.fields x.fields :=
      ⟨fun h xs hxs x hx m hm => h m hm xs hxs x hx, fun h m hm xs hxs x hx => h xs hxs x hx m hm⟩
    rw [hkept, ← hwhole]
    rfl

end

/-- The arguments of a call as one map. -/
theorem normalizeInputs_iff {P : Platform} {S : Schema} {inputs : List ActionInput}
    (hn : (inputs.map (·.name)).Nodup)
    {args w : Json} : normalizeInputs P S inputs args = .ok w ↔ ∃ object out, args = .obj object ∧
    w = .obj out ∧
      (∀ e ∈ object, ∃ i ∈ inputs, i.name = e.1) ∧ Collects (·.name) (inputValue P S object) inputs out := by
  rw [normalizeInputs_ok]
  constructor
  · rintro ⟨object, es, rfl, hdecl, hes, rfl⟩
    exact ⟨object, _, rfl, rfl, hdecl, (Collects.iff_collected hn).1 ⟨es, hes, rfl⟩⟩
  · rintro ⟨object, out, rfl, rfl, hdecl, hout⟩
    obtain ⟨es, hes, rfl⟩ := (Collects.iff_collected hn).2 hout
    exact ⟨object, es, rfl, hdecl, hes, rfl⟩

/-- Every argument stays. -/
def ArgsKept (year : String → Int) (value : Rat → Rat) (S : Schema) (inputs : List ActionInput)
    (args : Json) : Prop :=
  ∀ i ∈ inputs, OperandsKept year value S i (args.index i.name)

theorem inputArgument_held {i : ActionInput} {object : Fields} (hv : (Json.obj object).Held) {v : Json}
    (h : inputArgument i object = .ok v) : v.Held := by
  unfold inputArgument at h
  cases hg : Fields.get object i.name with
  | some u =>
    simp only [hg, Except.ok.injEq] at h
    exact h ▸ Json.held_get hv hg
  | none =>
    simp only [hg] at h
    split at h
    · cases h
      trivial
    · cases h

section
variable {P : Platform} {S : Schema} {inputs : List ActionInput}

theorem inputValue_normal {object : Fields} (h : (Json.obj object).Keyed) (i : ActionInput) :
    inputValue P S (object.map fun e => (e.1, e.2.normal)) i = inputValue P S object i := by
  unfold inputValue inputArgument
  rw [Fields.get_map]
  cases hg : Fields.get object i.name with
  | some v => exact normalizeInput_normal ((Json.keyed_obj.1 h).2 _ (Fields.mem_of_get hg))
  | none => rfl

theorem normalizeInputs_normal {v : Json} (h : v.Keyed) :
    normalizeInputs P S inputs v.normal = normalizeInputs P S inputs v := by
  cases v with
  | obj object =>
    rw [Json.normal_obj (Json.keyed_obj.1 h).1]
    unfold normalizeInputs
    have hsame (i : ActionInput) := inputValue_normal (P := P) (S := S) h i
    simp only [inputValue] at hsame
    simp only [Json.asObject, List.any_map, Function.comp_def]
    congr 1
    congr 1
    congr 1
    funext acc i
    have hone := congrArg (fun r : Except String Json => r >>= fun u =>
      pure (Fields.insert acc i.name u)) (hsame i)
    simpa only [bind_assoc] using hone
  | _ => rfl

theorem normalizeActionArgs_normal {a : ActionDescriptor} {v : Json} (h : v.Keyed) :
    normalizeActionArgs P S a v.normal = normalizeActionArgs P S a v := by
  unfold normalizeActionArgs
  rw [normalizeInputs_normal h]

variable (hS : S.Distinct) (hn : (inputs.map (·.name)).Nodup)
include hS hn

theorem normalizeInputs_tame {v w : Json} (hv : v.Held) (h : normalizeInputs P S inputs v = .ok w) :
    w.Tame := by
  obtain ⟨object, out, rfl, rfl, -, hout⟩ := (normalizeInputs_iff hn).1 h
  refine hout.tame fun i _ u hu => ?_
  obtain ⟨x, hx, hu⟩ := bind_ok.1 hu
  exact normalizeInput_tame hS (inputArgument_held hv hx) hu

theorem normalizeInputs_again (C : Chrono P) {value : Rat → Rat} (hint : IntegersRead value)
    {v w : Json} (hv : v.Held)
    (h : normalizeInputs P S inputs v = .ok w) :
    normalizeInputs P S inputs (w.readAs value) = .ok w ↔ ArgsKept C.year value S inputs v := by
  obtain ⟨object, out, rfl, rfl, -, hout⟩ := (normalizeInputs_iff hn).1 h
  have hdecl : ∀ e ∈ Fields.readAs value out, ∃ i ∈ inputs, i.name = e.1 := by
    intro e he
    obtain ⟨u, hu, -⟩ := Fields.mem_readAs.1 he
    exact hout.only (e.1, u) hu
  have hsplit : (∃ object' out', Json.obj (Fields.readAs value out) = .obj object' ∧ Json.obj out = .obj out' ∧
      (∀ e ∈ object', ∃ i ∈ inputs, i.name = e.1) ∧ Collects (·.name) (inputValue P S object') inputs out') ↔
      Collects (·.name) (inputValue P S (Fields.readAs value out)) inputs out := by
    constructor
    · rintro ⟨_, _, ⟨⟩, ⟨⟩, -, h⟩
      exact h
    · exact fun h => ⟨_, _, rfl, rfl, hdecl, h⟩
  rw [Fields.readAs_obj value hout.ordered, normalizeInputs_iff hn, hsplit, hout.again]
  refine forall₂_congr fun i hi => ?_
  obtain ⟨u, hu, hget⟩ := hout.value i hi
  obtain ⟨x, hx, hxu⟩ := bind_ok.1 hu
  have hread : inputValue P S (Fields.readAs value out) i = normalizeInput P S i (u.readAs value) := by
    unfold inputValue inputArgument
    rw [Fields.readAs, Fields.get_map, hget]
    rfl
  rw [hu, hread, inputArgument_index hx]
  simp only [Except.ok.injEq, forall_eq']
  exact normalizeInput_again C hint hS (inputArgument_held hv hx) hxu

end

section
variable {P : Platform} {S : Schema} {a : ActionDescriptor} (hS : (S.inputSchema a).Distinct)
  (hn : (a.inputs.map (·.name)).Nodup) {v w : Json} (hv : v.Held) (h : normalizeActionArgs P S a v = .ok w)
include hS hn hv h

theorem normalizeActionArgs_tame : w.Tame := by
  obtain ⟨u, hu, _, -, hw⟩ := by simpa only [normalizeActionArgs, bind_ok] using h
  cases pure_ok.1 hw
  exact normalizeInputs_tame hS hn hv hu

/-- The bindings are checked on what the inputs return, which is the same again. -/
theorem normalizeActionArgs_again (C : Chrono P) {value : Rat → Rat} (hint : IntegersRead value) :
    normalizeActionArgs P S a (w.readAs value) = .ok w ↔
    ArgsKept C.year value (S.inputSchema a) a.inputs v := by
  obtain ⟨u, hu, _, hbind, hw⟩ := by simpa only [normalizeActionArgs, bind_ok] using h
  cases pure_ok.1 hw
  rw [← normalizeInputs_again hS hn C hint hv hu]
  unfold normalizeActionArgs
  simp only [bind_ok, pure_ok]
  constructor
  · rintro ⟨u', hu', -, -, rfl⟩
    exact hu'
  · exact fun hu' => ⟨w, hu', (), hbind, rfl⟩

end

end Axton
