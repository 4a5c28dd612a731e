import Axton.Core.Materialization

/-!
# Equal contracts, equal reads

Two schemas with one materialization contract read alike: at the versions the contract was made for, keys
and states are accepted by both or by neither, with the same results. The contract does not depend on the
order of declarations, fields, identity fields or enum values.
-/

namespace Axton

/-! ## What a version is read by -/

theorem retained_closed {P : Platform} {S : Schema} (hS : S.validate P = true) {d : ModelReadDescriptor}
    (hd : d ∈ S.resultModels) : Closed d := by
  have hclosed := valid_closed ((valid_schema hS).read d hd) (m := d.model) (by simp)
  exact hclosed

theorem sourceOf_retained {S : Schema} {m : ModelDescriptor} {version : Nat} {d : ModelReadDescriptor}
    (h : S.sourceOf m version = .ok d) (hne : m.version ≠ version) : d ∈ S.resultModels ∧ d.name = m.name := by
  unfold Schema.sourceOf at h
  rw [if_neg hne] at h
  split at h
  · rename_i d' hfind
    cases h
    have hmatch := List.find?_some hfind
    simp only [Bool.and_eq_true, decide_eq_true_eq] at hmatch
    exact ⟨List.mem_of_find?_eq_some hfind, hmatch.1⟩
  · cases h

theorem sourceOf_closed {P : Platform} {S : Schema} (hS : S.validate P = true) {m : ModelDescriptor}
    (hm : m ∈ S.models) {version : Nat} {d : ModelReadDescriptor} (h : S.sourceOf m version = .ok d) : Closed d := by
  by_cases hv : m.version = version
  · unfold Schema.sourceOf at h
    rw [if_pos hv] at h
    cases h
    exact valid_closed (valid_schema hS).models hm
  · exact retained_closed hS (sourceOf_retained h hv).1

/-- The reader of a version holds the fields, the identity and the enums of its source. -/
theorem reader_model {S : Schema} {name : String} {version : Nat} {m : ModelDescriptor} {d : ModelReadDescriptor}
    {r : Schema} (hm : S.model name = .ok m) (hd : S.sourceOf m version = .ok d) (hr : S.reader name version = .ok r) :
    ∃ rm, r.model name = .ok rm ∧ rm.identity = d.identity ∧ rm.fields = d.fields ∧ r.enums = d.enums := by
  unfold Schema.reader at hr
  simp only [hm, bind_ok, Except.ok.injEq, exists_eq_left'] at hr
  by_cases hv : m.version = version
  · unfold Schema.sourceOf at hd
    rw [if_pos hv] at hr hd
    cases hr
    cases hd
    exact ⟨m, hm, rfl, rfl, rfl⟩
  · rw [if_neg hv] at hr
    simp only [hd, bind_ok, pure_ok, Except.ok.injEq, exists_eq_left'] at hr
    subst hr
    have hname : d.name = name := (sourceOf_retained hd hv).2.trans (mem_of_model hm).2
    refine ⟨d.model, ?_, rfl, rfl, rfl⟩
    rw [← hname]
    simp [readSchema, Schema.model, ModelReadDescriptor.model]

/-- Fields of sources with one description read as each other's. -/
theorem Described.readsAs {d d' : ModelReadDescriptor} (D : Described d d') (C : Closed d) (C' : Closed d')
    {f f' : FieldDescriptor} (hf : f ∈ d.fields) (hf' : f' ∈ d'.fields) (h : SameField f f') :
    ReadsAs d.enums d'.enums f f' := by
  refine ⟨h.1, h.2.2, h.2.1, fun n hn s => ?_⟩
  obtain ⟨e, he, rfl⟩ := C.declared f hf n hn
  obtain ⟨e', he', hname⟩ := C'.declared f' hf' e.name (h.2.2 ▸ hn)
  have hvalues := D.enums f hf e he e' he' hn hname
  rw [enumValue_iff C.enums he, ← hname, enumValue_iff C'.enums he']
  exact hvalues.mem_iff

theorem Described.readAlike {d d' : ModelReadDescriptor} (D : Described d d') (C : Closed d) (C' : Closed d')
    {m m' : ModelDescriptor} (hid : m.identity = d.identity) (hfields : m.fields = d.fields)
    (hid' : m'.identity = d'.identity) (hfields' : m'.fields = d'.fields) : ReadAlike d.enums d'.enums m m' := by
  refine ⟨by rw [hid, hid']; exact D.identity, fun f hf => ?_, fun f' hf' => ?_⟩
  · rw [hfields] at hf
    obtain ⟨f', hf', hsame⟩ := D.toward f hf
    exact ⟨f', hfields' ▸ hf', D.readsAs C C' hf hf' hsame⟩
  · rw [hfields'] at hf'
    obtain ⟨f, hf, hsame⟩ := D.back f' hf'
    exact ⟨f, hfields ▸ hf, D.readsAs C C' hf hf' hsame⟩

theorem Described.symm {d d' : ModelReadDescriptor} (D : Described d d') : Described d' d := by
  refine ⟨D.identity.symm, fun f' hf' => ?_, fun f hf => ?_, fun f' hf' e' he' e he hreach hname => ?_⟩
  · obtain ⟨f, hf, hsame⟩ := D.back f' hf'
    exact ⟨f, hf, hsame.1.symm, hsame.2.1.symm, hsame.2.2.symm⟩
  · obtain ⟨f', hf', hsame⟩ := D.toward f hf
    exact ⟨f', hf', hsame.1.symm, hsame.2.1.symm, hsame.2.2.symm⟩
  · obtain ⟨f, hf, hsame⟩ := D.back f' hf'
    refine (D.enums f hf e he e' he' ?_ hname.symm).symm
    rw [hname, ← hsame.2.2]
    exact hreach

/-- Two schemas read a version alike. -/
def SameReads (P : Platform) (S S' : Schema) (name : String) (version : Nat) : Prop :=
  ∃ r r', S.reader name version = .ok r ∧ S'.reader name version = .ok r' ∧
    (∀ v key, r.recordKey P name v = .ok key ↔ r'.recordKey P name v = .ok key) ∧
      ∀ v w, (r.validateState P name v = .ok w ↔ r'.validateState P name v = .ok w) ∧
        (r.normalizeState P name v = .ok w ↔ r'.normalizeState P name v = .ok w)

theorem reader_ok {S : Schema} {name : String} {version : Nat} {m : ModelDescriptor} {d : ModelReadDescriptor}
    (hm : S.model name = .ok m) (hd : S.sourceOf m version = .ok d) : ∃ r, S.reader name version = .ok r := by
  unfold Schema.reader
  simp only [hm, bind_ok, Except.ok.injEq, exists_eq_left']
  by_cases hv : m.version = version
  · exact ⟨_, by rw [if_pos hv]; rfl⟩
  · refine ⟨readSchema S d, ?_⟩
    rw [if_neg hv]
    simp only [hd, bind_ok, pure_ok, Except.ok.injEq, exists_eq_left']

theorem Described.sameReads {P : Platform} {S S' : Schema} {name : String} {version : Nat} {m m' : ModelDescriptor}
    {d d' : ModelReadDescriptor} (D : Described d d') (C : Closed d) (C' : Closed d') (hm : S.model name = .ok m)
    (hd : S.sourceOf m version = .ok d) (hm' : S'.model name = .ok m') (hd' : S'.sourceOf m' version = .ok d') :
    SameReads P S S' name version := by
  obtain ⟨r, hr⟩ := reader_ok hm hd
  obtain ⟨r', hr'⟩ := reader_ok hm' hd'
  obtain ⟨rm, hrm, hid, hfields, henums⟩ := reader_model hm hd hr
  obtain ⟨rm', hrm', hid', hfields', henums'⟩ := reader_model hm' hd' hr'
  have A : ReadAlike r.enums r'.enums rm rm' := by
    rw [henums, henums']
    exact D.readAlike C C' hid hfields hid' hfields'
  have hn : (rm.fields.map (·.name)).Nodup := by rw [hfields]; exact C.fields
  have hn' : (rm'.fields.map (·.name)).Nodup := by rw [hfields']; exact C'.fields
  have hidn : rm.identity.Nodup := by rw [hid]; exact C.identity
  have hidn' : rm'.identity.Nodup := by rw [hid']; exact C'.identity
  have hnamed : ∀ n ∈ rm.identity, (rm.field n).isSome := by
    intro n hin
    rw [hid] at hin
    have hsome := C.named n hin
    unfold ModelDescriptor.field at hsome ⊢
    rw [hfields]
    exact hsome
  have hnamed' : ∀ n ∈ rm'.identity, (rm'.field n).isSome := by
    intro n hin
    rw [hid'] at hin
    have hsome := C'.named n hin
    unfold ModelDescriptor.field at hsome ⊢
    rw [hfields']
    exact hsome
  have hstate (loader : Bool) (v w : Json) : r.state P name v loader = .ok w ↔ r'.state P name v loader = .ok w :=
    ⟨A.state hrm hrm' hn hn', A.symm.state hrm' hrm hn' hn⟩
  exact ⟨r, r', hr, hr', fun v key => ⟨A.recordKey hrm hrm' hn' hidn hnamed, A.symm.recordKey hrm' hrm hn hidn' hnamed'⟩,
    fun v w => ⟨hstate false v w, hstate true v w⟩⟩

/-! ## The models a contract covers -/

theorem modelContract_ok {S : Schema} {e : String × Nat} {c : Json} : S.modelContract e = .ok c ↔
    counter e.2 = true ∧ e.2 ≠ 0 ∧ ∃ m d, S.model e.1 = .ok m ∧ S.sourceOf m e.2 = .ok d ∧ describe m.bootstrap e.1 e.2 d = .ok c := by
  unfold Schema.modelContract
  by_cases hcounter : counter e.2 = true
  · by_cases hzero : e.2 = 0
    · rw [hzero] at hcounter
      simp [hzero, hcounter]
    · simp [hcounter, hzero]
  · simp [hcounter]

theorem contract_ok {S : Schema} {models : ModelVersions} {g : String} {c : Json} : S.contract models g = .ok c ↔
    nonblank g = true ∧ models.entries.length = S.models.length ∧ ∃ cs, models.entries.mapM S.modelContract = .ok cs ∧
      c = .obj [("models", .arr cs), ("projectionGeneration", .str g)] := by
  unfold Schema.contract
  by_cases hg : nonblank g = true
  · by_cases hlen : models.entries.length = S.models.length
    · simp only [hg, hlen, Bool.true_eq_false, ne_eq, not_true_eq_false, if_false, bind_ok, pure_ok, true_and]
      exact exists_congr fun cs => and_congr_right fun _ => eq_comm
    · simp [hg, hlen]
  · simp [hg]

/-- A contract describes every declared model. -/
theorem contract_covers {S : Schema} {models : ModelVersions} {g : String} {c : Json}
    (h : S.contract models g = .ok c) : (models.entries.map (·.1)).Perm (S.models.map (·.name)) := by
  obtain ⟨-, hlen, cs, hcs, -⟩ := contract_ok.1 h
  have hn : (models.entries.map (·.1)).Nodup := List.pairwise_map.2 (models.ordered.imp fun h => ne_of_lt h)
  have hsub : (models.entries.map (·.1)) ⊆ S.models.map (·.name) := by
    intro name hname
    obtain ⟨e, he, rfl⟩ := List.mem_map.1 hname
    obtain ⟨c', -, hmodel⟩ := forall₂_mem_left (mapM_ok.1 hcs) he
    obtain ⟨-, -, m, -, hm, -⟩ := modelContract_ok.1 hmodel
    exact List.mem_map.2 ⟨m, mem_of_model hm⟩
  exact (List.subperm_of_subset hn hsub).perm_of_length_le (by simp [hlen])

def SameBootstrap (S S' : Schema) (name : String) : Prop :=
  ∃ m m', S.model name = .ok m ∧ S'.model name = .ok m' ∧ m.bootstrap = m'.bootstrap

/-- Both schemas describe the same models at the same versions, and read them alike. -/
structure SameMaterialization (P : Platform) (S S' : Schema) (models models' : ModelVersions) : Prop where
  versions : models.entries = models'.entries
  every : (models.entries.map (·.1)).Perm (S.models.map (·.name))
  covered : (S.models.map (·.name)).Perm (S'.models.map (·.name))
  bootstrap : ∀ e ∈ models.entries, SameBootstrap S S' e.1
  reads : ∀ e ∈ models.entries, SameReads P S S' e.1 e.2

section
variable {P : Platform} {S S' : Schema} (hS : S.validate P = true) (hS' : S'.validate P = true)
include hS hS'

/-- One contract, one version, one bootstrap flag and one reading. -/
theorem modelContract_sound {e e' : String × Nat} {c : Json} (h : S.modelContract e = .ok c)
    (h' : S'.modelContract e' = .ok c) : e = e' ∧ SameBootstrap S S' e.1 ∧ SameReads P S S' e.1 e.2 := by
  obtain ⟨-, -, m, d, hm, hd, hc⟩ := modelContract_ok.1 h
  obtain ⟨-, -, m', d', hm', hd', hc'⟩ := modelContract_ok.1 h'
  have C := sourceOf_closed hS (mem_of_model hm).1 hd
  have C' := sourceOf_closed hS' (mem_of_model hm').1 hd'
  obtain ⟨hboot, hname, hversion, D⟩ := (describe_eq_iff C C').1 (hc.trans hc'.symm)
  rw [← hname] at hm'
  rw [← hversion] at hd'
  exact ⟨Prod.ext hname hversion, ⟨m, m', hm, hm', hboot⟩, D.sameReads C C' hm hd hm' hd'⟩

theorem contract_sound {models models' : ModelVersions} {g g' : String} {c : Json} (h : S.contract models g = .ok c)
    (h' : S'.contract models' g' = .ok c) : g = g' ∧ SameMaterialization P S S' models models' := by
  obtain ⟨-, -, cs, hcs, hc⟩ := contract_ok.1 h
  obtain ⟨-, -, cs', hcs', hc'⟩ := contract_ok.1 h'
  rw [hc] at hc'
  simp only [Json.obj.injEq, List.cons.injEq, Prod.mk.injEq, Json.arr.injEq, Json.str.injEq, true_and, and_true] at hc'
  obtain ⟨rfl, hg⟩ := hc'
  have hpairs : List.Forall₂ (fun e e' => e = e' ∧ SameBootstrap S S' e.1 ∧ SameReads P S S' e.1 e.2)
      models.entries models'.entries := by
    refine forall₂_comp ?_ (mapM_ok.1 hcs) (mapM_ok.1 hcs').flip
    intro e c e' he he'
    exact modelContract_sound hS hS' he he'
  have hversions : models.entries = models'.entries := List.forall₂_eq_eq_eq ▸ hpairs.imp fun _ _ h => h.1
  have hentry : ∀ e ∈ models.entries, SameBootstrap S S' e.1 ∧ SameReads P S S' e.1 e.2 := by
    intro e he
    obtain ⟨e', -, -, hsame⟩ := forall₂_mem_left hpairs he
    exact hsame
  have hcover := contract_covers h
  have hcover' := contract_covers h'
  exact ⟨hg, hversions, hcover, hcover.symm.trans (hversions ▸ hcover'), fun e he => (hentry e he).1, fun e he => (hentry e he).2⟩

end

/-! ## Declarations in another order -/

def ReorderedEnum (e e' : EnumDescriptor) : Prop := e'.name = e.name ∧ e.values.Perm e'.values

/-- A model with its fields and identity fields reordered. Relations and unique sets are not described. -/
structure ReorderedModel (m m' : ModelDescriptor) : Prop where
  name : m'.name = m.name
  version : m'.version = m.version
  bootstrap : m'.bootstrap = m.bootstrap
  identity : m.identity.Perm m'.identity
  fields : m.fields.Perm m'.fields

structure ReorderedRead (d d' : ModelReadDescriptor) : Prop where
  name : d'.name = d.name
  version : d'.version = d.version
  identity : d.identity.Perm d'.identity
  fields : d.fields.Perm d'.fields
  enums : Permuted ReorderedEnum d.enums d'.enums

/-- A schema with its declarations, and what they list, reordered. -/
structure Reordered (S S' : Schema) : Prop where
  models : Permuted ReorderedModel S.models S'.models
  enums : Permuted ReorderedEnum S.enums S'.enums
  resultModels : Permuted ReorderedRead S.resultModels S'.resultModels

theorem ReorderedRead.closed {d d' : ModelReadDescriptor} (h : ReorderedRead d d') (C : Closed d) : Closed d' := by
  have hnames : (d.enums.map (·.name)).Perm (d'.enums.map (·.name)) := h.enums.map_perm fun e e' he => he.1
  refine ⟨(h.fields.map _).nodup_iff.1 C.fields, hnames.nodup_iff.1 C.enums, fun f hf n hn => ?_,
    h.identity.nodup_iff.1 C.identity, fun n hn => ?_⟩
  · obtain ⟨e, he, hname⟩ := C.declared f (h.fields.mem_iff.2 hf) n hn
    obtain ⟨e', he', hsame⟩ := h.enums.mem_left he
    exact ⟨e', he', hsame.1.trans hname⟩
  · obtain ⟨f, hf, hname⟩ := field_isSome.1 (C.named n (h.identity.mem_iff.2 hn))
    exact field_isSome.2 ⟨f, h.fields.mem_iff.1 hf, hname⟩

theorem ReorderedRead.described {d d' : ModelReadDescriptor} (h : ReorderedRead d d') (C : Closed d) : Described d d' := by
  refine ⟨h.identity, fun f hf => ⟨f, h.fields.mem_iff.1 hf, rfl, rfl, rfl⟩,
    fun f hf => ⟨f, h.fields.mem_iff.2 hf, rfl, rfl, rfl⟩, fun f hf e he e' he' hreach hname => ?_⟩
  obtain ⟨g, hg, hsame⟩ := h.enums.mem_right he'
  have heq : g = e := List.inj_on_of_nodup_map C.enums hg he (hsame.1.symm.trans hname)
  exact heq ▸ hsame.2

section
variable {P : Platform} {S T : Schema} (hS : S.validate P = true) (h : Reordered S T)
include hS h

/-- Both schemas miss a model, or hold it in two orders. -/
theorem model_reordered (name : String) : (∃ msg, S.model name = .error msg ∧ T.model name = .error msg) ∨
    ∃ m m', S.model name = .ok m ∧ T.model name = .ok m' ∧ ReorderedModel m m' := by
  have hnames := (valid_names hS).2
  have hfind := @Permuted.find _ _ _ _ _ h.models (fun m => m.name = name) (fun m => m.name = name)
    (fun m m' hm => by rw [hm.name]) fun m hm m' hm' hp hp' =>
      List.inj_on_of_nodup_map hnames hm hm' ((of_decide_eq_true hp).trans (of_decide_eq_true hp').symm)
  rcases hfind with ⟨hs, ht⟩ | ⟨m, m', hs, ht, hm⟩
  · exact .inl ⟨"unknown model " ++ name, by simp [Schema.model, hs], by simp [Schema.model, ht]⟩
  · exact .inr ⟨m, m', by simp [Schema.model, hs], by simp [Schema.model, ht], hm⟩

theorem sourceOf_reordered {m m' : ModelDescriptor} (hm : ReorderedModel m m') (version : Nat) :
    (∃ msg, S.sourceOf m version = .error msg ∧ T.sourceOf m' version = .error msg) ∨
      ∃ d d', S.sourceOf m version = .ok d ∧ T.sourceOf m' version = .ok d' ∧ ReorderedRead d d' := by
  unfold Schema.sourceOf
  rw [hm.version, hm.name]
  by_cases hv : m.version = version
  · rw [if_pos hv, if_pos hv]
    exact .inr ⟨_, _, rfl, rfl, hm.name, hm.version, hm.identity, hm.fields, h.enums⟩
  · rw [if_neg hv, if_neg hv]
    have hkeys := (valid_schema hS).reads
    have hfind := @Permuted.find _ _ _ _ _ h.resultModels (fun d => d.name = m.name && d.version = version)
      (fun d => d.name = m.name && d.version = version) (fun d d' hd => by rw [hd.name, hd.version])
      fun d hd d' hd' hp hp' => by
        simp only [Bool.and_eq_true, decide_eq_true_eq] at hp hp'
        exact List.inj_on_of_nodup_map hkeys hd hd' (Prod.ext (hp.1.trans hp'.1.symm) (hp.2.trans hp'.2.symm))
    rcases hfind with ⟨hs, ht⟩ | ⟨d, d', hs, ht, hd⟩
    · exact .inl ⟨"retained materialization contract missing", by rw [hs], by rw [ht]⟩
    · exact .inr ⟨d, d', by rw [hs], by rw [ht], hd⟩

theorem modelContract_reordered (e : String × Nat) : T.modelContract e = S.modelContract e := by
  have hread : (T.model e.1 >>= fun m => T.sourceOf m e.2 >>= fun d => describe m.bootstrap e.1 e.2 d) =
      S.model e.1 >>= fun m => S.sourceOf m e.2 >>= fun d => describe m.bootstrap e.1 e.2 d := by
    rcases model_reordered hS h e.1 with ⟨msg, hs, ht⟩ | ⟨m, m', hs, ht, hm⟩
    · rw [hs, ht]
      rfl
    · rw [hs, ht]
      show (T.sourceOf m' e.2 >>= fun d => describe m'.bootstrap e.1 e.2 d) = S.sourceOf m e.2 >>= _
      rcases sourceOf_reordered hS h hm e.2 with ⟨msg, hs', ht'⟩ | ⟨d, d', hs', ht', hd⟩
      · rw [hs', ht']
        rfl
      · rw [hs', ht']
        have C := sourceOf_closed hS (mem_of_model hs).1 hs'
        exact (describe_eq_iff (hd.closed C) C).2 ⟨hm.bootstrap, rfl, rfl, (hd.described C).symm⟩
  unfold Schema.modelContract
  rw [hread]

/-- **A contract does not depend on the order of declarations.** -/
theorem contract_reordered (models : ModelVersions) (g : String) : T.contract models g = S.contract models g := by
  have hall : T.modelContract = S.modelContract := funext (modelContract_reordered hS h)
  unfold Schema.contract
  rw [h.models.length_eq, hall]

end

end Axton
