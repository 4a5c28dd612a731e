import Axton.Core.Actions
import Axton.Lib.Check
import Axton.Lib.Pointwise
import Mathlib.Data.List.Nodup

/-!
# What the normalizers collect

Every normalizer builds its object by inserting one entry per declared name. Each is given here by
the entries it collects: when it succeeds, and what a name of the result reads as.
-/

namespace Axton

namespace Fields

theorem mem_insert {fs : Fields} {name : String} {v : Json} {e : String × Json} (h : e ∈ insert fs name v) :
    e = (name, v) ∨ e ∈ fs := by
  induction fs with
  | nil => simpa [insert] using h
  | cons x fs ih =>
    obtain ⟨k, w⟩ := x
    unfold insert at h
    by_cases hk : k = name
    · simp only [hk, if_true, List.mem_cons] at h
      rcases h with h | h
      · exact .inl h
      · exact .inr (List.mem_cons_of_mem _ h)
    · simp only [hk, if_false] at h
      split at h
      · simpa using h
      · rcases List.mem_cons.1 h with h | h
        · exact .inr (h ▸ List.mem_cons_self)
        · rcases ih h with h | h
          · exact .inl h
          · exact .inr (List.mem_cons_of_mem _ h)

theorem mem_of_get {fs : Fields} {name : String} {v : Json} (h : get fs name = some v) : (name, v) ∈ fs := by
  induction fs with
  | nil => simp [get] at h
  | cons x fs ih =>
    obtain ⟨k, w⟩ := x
    by_cases hk : k = name
    · simp [get, hk] at h
      simp [hk, h]
    · simp only [get, hk, if_false] at h
      exact List.mem_cons_of_mem _ (ih h)

theorem get_of_mem {fs : Fields} {e : String × Json} (h : e ∈ fs) : ∃ v, get fs e.1 = some v := by
  induction fs with
  | nil => cases h
  | cons x fs ih =>
    obtain ⟨k, w⟩ := x
    by_cases hk : k = e.1
    · exact ⟨w, by simp [get, hk]⟩
    · rcases List.mem_cons.1 h with rfl | h
      · exact absurd rfl hk
      · simpa [get, hk] using ih h

theorem mem_extend {fs es : Fields} {e : String × Json} (h : e ∈ extend fs es) : e ∈ es ∨ e ∈ fs := by
  induction es generalizing fs with
  | nil => exact .inr h
  | cons x es ih =>
    rcases ih h with h | h
    · exact .inl (List.mem_cons_of_mem _ h)
    · rcases mem_insert h with rfl | h
      · exact .inl List.mem_cons_self
      · exact .inr h

/-- A name of an extended object reads from the extension when that has it, and as before otherwise. -/
theorem get_extend (fs es : Fields) (name : String) :
    (∃ v, (name, v) ∈ es ∧ get (extend fs es) name = some v) ∨
      ((∀ e ∈ es, e.1 ≠ name) ∧ get (extend fs es) name = get fs name) := by
  induction es generalizing fs with
  | nil => exact .inr ⟨by simp, rfl⟩
  | cons x es ih =>
    obtain ⟨k, w⟩ := x
    have step : extend fs ((k, w) :: es) = extend (insert fs k w) es := rfl
    rw [step]
    rcases ih (insert fs k w) with ⟨v, hv, hget⟩ | ⟨hne, hget⟩
    · exact .inl ⟨v, List.mem_cons_of_mem _ hv, hget⟩
    · rw [get_insert] at hget
      by_cases hk : k = name
      · subst hk
        exact .inl ⟨w, List.mem_cons_self, by simpa using hget⟩
      · refine .inr ⟨?_, by simpa [hk] using hget⟩
        intro e he
        rcases List.mem_cons.1 he with rfl | he
        · exact hk
        · exact hne e he

/-- The names of a collected object. -/
theorem mem_collected {es : Fields} {name : String} :
    (∃ v, (name, v) ∈ extend [] es) ↔ ∃ v, (name, v) ∈ es := by
  constructor
  · rintro ⟨v, hv⟩
    rcases mem_extend hv with hv | hv
    · exact ⟨v, hv⟩
    · cases hv
  · rintro ⟨v, hv⟩
    rcases get_extend [] es name with ⟨w, -, hw⟩ | ⟨hne, -⟩
    · exact ⟨w, mem_of_get hw⟩
    · exact absurd rfl (hne _ hv)

end Fields

/-- An object collected by inserting one entry per element: every element has its value, and the
entries extend what was there. -/
theorem foldlM_insert {α : Type} (name : α → String) (val : α → Except String Json) {xs : List α}
    {f : Fields → α → Except String Fields} (hf : ∀ acc x, f acc x = (val x).map (Fields.insert acc (name x)))
    {acc out : Fields} :
    xs.foldlM f acc = .ok out ↔
      ∃ es : Fields, List.Forall₂ (fun x e => e.1 = name x ∧ val x = .ok e.2) xs es ∧
        Fields.extend acc es = out := by
  induction xs generalizing acc with
  | nil =>
    simp only [List.foldlM_nil, pure_ok]
    constructor
    · rintro rfl
      exact ⟨[], .nil, rfl⟩
    · rintro ⟨es, hes, rfl⟩
      cases hes
      rfl
  | cons x xs ih =>
    simp only [List.foldlM_cons, bind_ok, hf, map_ok]
    constructor
    · rintro ⟨_, ⟨w, hw, rfl⟩, h⟩
      obtain ⟨es, hes, hout⟩ := ih.1 h
      exact ⟨(name x, w) :: es, .cons ⟨rfl, hw⟩ hes, hout⟩
    · rintro ⟨es, hes, hout⟩
      cases hes with
      | @cons _ e _ es he hes =>
        obtain ⟨k, w⟩ := e
        obtain ⟨rfl, hw⟩ := he
        exact ⟨_, ⟨w, hw, rfl⟩, ih.2 ⟨es, hes, hout⟩⟩

/-! ## What each normalizer collects -/

/-- What `identityFields` stores for an identity field. -/
def identityValue (P : Platform) (S : Schema) (m : ModelDescriptor) (input : Fields) (name : String) :
    Except String Json :=
  match m.field name with
  | none => .error "identity descriptor missing"
  | some f => match Fields.get input name with
    | none => .error "identity missing"
    | some v => normalizeValue P S.enums f v

/-- What `state` stores for a field: an absent nullable field is null. -/
def stateValue (P : Platform) (S : Schema) (input : Fields) (f : FieldDescriptor) : Except String Json :=
  match Fields.get input f.name with
  | some v => normalizeValue P S.enums f v
  | none =>
    if f.nullable then normalizeValue P S.enums f .null else .error ("missing state field " ++ f.name)

/-- What `validatePatch` stores for an entry. -/
def patchValue (P : Platform) (S : Schema) (m : ModelDescriptor) (e : String × Json) : Except String Json :=
  if m.identity.contains e.1 then .error "identity is immutable"
  else match m.field e.1 with
    | none => .error "unknown patch field"
    | some f => normalizeValue P S.enums f e.2

section
variable {P : Platform} {S : Schema}

theorem identityFields_ok {m : ModelDescriptor} {input out : Fields} :
    S.identityFields P m input = .ok out ↔
      ∃ es : Fields, List.Forall₂ (fun n e => e.1 = n ∧ identityValue P S m input n = .ok e.2) m.identity es ∧
        Fields.extend [] es = out := by
  refine foldlM_insert (fun n => n) (identityValue P S m input) fun acc name => ?_
  unfold identityValue
  cases m.field name with
  | none => rfl
  | some f =>
    cases Fields.get input name with
    | none => rfl
    | some v => cases normalizeValue P S.enums f v <;> rfl

theorem recordKey_ok {name : String} {v : Json} {key : RecordKey} :
    S.recordKey P name v = .ok key ↔ ∃ m input out, S.model name = .ok m ∧ v = .obj input ∧
      input.length = m.identity.length ∧ (∀ e ∈ input, e.1 ∈ m.identity) ∧
      S.identityFields P m input = .ok out ∧ key = ⟨name, .obj out⟩ := by
  unfold Schema.recordKey
  simp only [bind_ok]
  constructor
  · rintro ⟨m, hm, h⟩
    cases hv : v.asObject with
    | none => simp [hv] at h
    | some input =>
      simp only [hv] at h
      split at h
      · simp at h
      · rename_i hc
        simp only [not_or, Decidable.not_not, Bool.not_eq_true, List.any_eq_false] at hc
        simp only [bind_ok, pure_ok] at h
        obtain ⟨out, hout, rfl⟩ := h
        cases v <;> simp only [Json.asObject, Option.some.injEq, reduceCtorEq] at hv
        subst hv
        exact ⟨m, _, out, hm, rfl, hc.1, fun e he => by simpa using hc.2 e he, hout, rfl⟩
  · rintro ⟨m, input, out, hm, rfl, hlen, hmem, hout, rfl⟩
    refine ⟨m, hm, ?_⟩
    have hc : ¬ (input.length ≠ m.identity.length ∨ input.any fun e => !m.identity.contains e.1) := by
      simpa [hlen] using hmem
    simp only [Json.asObject, hc, if_false, bind_ok, pure_ok]
    exact ⟨out, hout, rfl⟩

theorem stateFields_ok {m : ModelDescriptor} {input out : Fields} :
    (m.fields.filter fun f => !m.identity.contains f.name).foldlM (fun acc f => (do
      let v ← match Fields.get input f.name with
        | some v => .ok v
        | none => if f.nullable then .ok .null else .error ("missing state field " ++ f.name)
      return Fields.insert acc f.name (← normalizeValue P S.enums f v) : Except String Fields)) [] = .ok out ↔
      ∃ es : Fields, List.Forall₂ (fun f e => e.1 = f.name ∧ stateValue P S input f = .ok e.2)
        (m.fields.filter fun f => !m.identity.contains f.name) es ∧ Fields.extend [] es = out := by
  refine foldlM_insert (·.name) (stateValue P S input) fun acc f => ?_
  have hmap (x : Except String Json) :
      (x >>= fun w => .ok (Fields.insert acc f.name w)) = x.map (Fields.insert acc f.name) := by
    cases x <;> rfl
  unfold stateValue
  cases Fields.get input f.name with
  | some v => exact hmap _
  | none =>
    cases f.nullable
    · rfl
    · exact hmap _

theorem normalizeState_ok {name : String} {v w : Json} :
    S.normalizeState P name v = .ok w ↔ ∃ m input es, S.model name = .ok m ∧ v = .obj input ∧
      (∀ e ∈ input, ∃ f ∈ m.fields, f.name = e.1) ∧
      List.Forall₂ (fun f e => e.1 = f.name ∧ stateValue P S input f = .ok e.2)
        (m.fields.filter fun f => !m.identity.contains f.name) es ∧
      w = .obj (Fields.extend [] es) := by
  unfold Schema.normalizeState Schema.state
  simp only [bind_ok]
  constructor
  · rintro ⟨m, hm, h⟩
    cases v with
    | obj input =>
      simp only [Json.asObject] at h
      split at h
      · simp at h
      · rename_i hc
        simp only [bind_ok, pure_ok] at h
        obtain ⟨out, hout, rfl⟩ := h
        obtain ⟨es, hes, rfl⟩ := stateFields_ok.1 hout
        refine ⟨m, input, es, hm, rfl, fun e he => ?_, hes, rfl⟩
        simp only [List.any_eq_true, not_exists] at hc
        simpa [he] using hc e
    | _ => simp [Json.asObject] at h
  · rintro ⟨m, input, es, hm, rfl, hmem, hes, rfl⟩
    refine ⟨m, hm, ?_⟩
    have hc : ¬ ((input.any fun e => (true && !(m.fields.any (·.name = e.1))) ||
        (!true && m.identity.contains e.1)) = true) := by
      simpa using hmem
    show (if _ then _ else _) = _
    rw [if_neg hc]
    simp only [bind_ok, pure_ok]
    exact ⟨_, stateFields_ok.2 ⟨es, hes, rfl⟩, rfl⟩

/-- The loop of `validate_patch`. -/
theorem foldlM_patch {m : ModelDescriptor} {input out : Fields} : input.foldlM (fun acc e => (do
      if m.identity.contains e.1 then .error "identity is immutable"
      else
        let some f := m.field e.1 | .error "unknown patch field"
        return Fields.insert acc e.1 (← normalizeValue P S.enums f e.2) : Except String Fields)) [] = .ok out ↔
    ∃ es : Fields, List.Forall₂ (fun x e => e.1 = x.1 ∧ patchValue P S m x = .ok e.2) input es ∧
      Fields.extend [] es = out := by
  refine foldlM_insert (·.1) (patchValue P S m) fun acc e => ?_
  unfold patchValue
  split
  · rfl
  · cases m.field e.1 with
    | none => rfl
    | some f => cases h : normalizeValue P S.enums f e.2 <;> simp [bind, Except.bind, Except.map, h, pure, Except.pure]

theorem validatePatch_ok {name : String} {input : Fields} {w : Json} :
    S.validatePatch P name (.obj input) = .ok w ↔ ∃ m es, S.model name = .ok m ∧
      List.Forall₂ (fun x e => e.1 = x.1 ∧ patchValue P S m x = .ok e.2) input es ∧
      w = .obj (Fields.extend [] es) := by
  unfold Schema.validatePatch
  simp only [Json.asObject, bind_ok]
  constructor
  · rintro ⟨m, hm, out, hout, h⟩
    obtain ⟨es, hes, rfl⟩ := foldlM_patch.1 hout
    exact ⟨m, es, hm, hes, (pure_ok.1 h).symm⟩
  · rintro ⟨m, es, hm, hes, rfl⟩
    exact ⟨m, hm, _, foldlM_patch.2 ⟨es, hes, rfl⟩, rfl⟩

end

/-! ## Records and operands -/

theorem ModelDescriptor.mem_of_field {m : ModelDescriptor} {name : String} {f : FieldDescriptor}
    (h : m.field name = some f) : f ∈ m.fields ∧ f.name = name :=
  ⟨List.mem_of_find?_eq_some h, by simpa using List.find?_some h⟩

theorem ModelDescriptor.field_of_mem {m : ModelDescriptor} {f : FieldDescriptor}
    (hn : (m.fields.map (·.name)).Nodup) (h : f ∈ m.fields) : m.field f.name = some f := by
  cases hg : m.field f.name with
  | none =>
    have := List.find?_eq_none.1 hg f h
    simp at this
  | some g =>
    obtain ⟨hmem, hname⟩ := mem_of_field hg
    rw [List.inj_on_of_nodup_map hn hmem h hname]

theorem ModelDescriptor.field_eq_none {m : ModelDescriptor} {name : String} :
    m.field name = none ↔ ∀ f ∈ m.fields, f.name ≠ name := by
  simp [ModelDescriptor.field, List.find?_eq_none]

/-- The identity object names identity fields of the model only. -/
theorem identityFields_names {P : Platform} {S : Schema} {m : ModelDescriptor} {input out : Fields}
    (h : S.identityFields P m input = .ok out) : ∀ e ∈ out, e.1 ∈ m.identity := by
  obtain ⟨es, hes, rfl⟩ := identityFields_ok.1 h
  intro e he
  rcases Fields.mem_extend he with he | he
  · obtain ⟨n, hn, rfl, -⟩ := forall₂_mem_right hes he
    exact hn
  · cases he

section
variable {P : Platform} {S : Schema} {model : String} {allowed : Option (List String)} {v w : Json}

theorem normalizeCreate_ok : normalizeModelInput P S model .create allowed v = .ok w ↔
    ∃ object m key st, v = .obj object ∧ S.model model = .ok m ∧
      S.recordKey P model (.obj (Fields.pick object m.identity)) = .ok key ∧
      S.normalizeState P model v = .ok st ∧ w = .obj (Fields.extend key.identity.fields st.fields) := by
  unfold normalizeModelInput
  cases v with
  | obj object =>
    simp only [Json.asObject, bind_ok, pure_ok]
    constructor
    · rintro ⟨m, hm, key, hkey, st, hst, rfl⟩
      exact ⟨object, m, key, st, rfl, hm, hkey, hst, rfl⟩
    · rintro ⟨_, m, key, st, ⟨⟩, hm, hkey, hst, rfl⟩
      exact ⟨m, hm, key, hkey, st, hst, rfl⟩
  | _ => simp [Json.asObject]

theorem normalizeDelete_ok : normalizeModelInput P S model .delete allowed v = .ok w ↔
    ∃ object key, v = .obj object ∧ S.recordKey P model v = .ok key ∧
      object.length = key.identity.fields.length ∧ w = key.identity := by
  unfold normalizeModelInput
  cases v with
  | obj object =>
    simp only [Json.asObject, bind_ok]
    constructor
    · rintro ⟨key, hkey, h⟩
      split at h
      · cases h
      · rename_i hlen
        exact ⟨object, key, rfl, hkey, not_not.1 hlen, (pure_ok.1 h).symm⟩
    · rintro ⟨_, key, ⟨⟩, hkey, hlen, rfl⟩
      exact ⟨key, hkey, by simp [hlen]⟩
  | _ => simp [Json.asObject]

/-- The entries of an update operand outside the identity. -/
def patchOf (identity : List String) (object : Fields) : Fields := object.filter fun e => !identity.contains e.1

theorem normalizeUpdate_ok : normalizeModelInput P S model .update allowed v = .ok w ↔
    ∃ object m key patch, v = .obj object ∧ S.model model = .ok m ∧
      S.recordKey P model (.obj (Fields.pick object m.identity)) = .ok key ∧
      S.validatePatch P model (.obj (patchOf m.identity object)) = .ok patch ∧
      (∀ names, allowed = some names → ∀ e ∈ patch.fields, e.1 ∈ names) ∧
      w = .obj (Fields.extend key.identity.fields patch.fields) := by
  unfold normalizeModelInput
  cases v with
  | obj object =>
    simp only [Json.asObject, bind_ok]
    constructor
    · rintro ⟨m, hm, key, hkey, patch, hpatch, h⟩
      refine ⟨object, m, key, patch, rfl, hm, hkey, hpatch, ?_, ?_⟩
      · rintro names rfl e he
        simp only at h
        split at h
        · cases h
        · rename_i hany
          simp only [List.any_eq_true, not_exists, not_and, Bool.not_eq_true, Bool.not_eq_false'] at hany
          simpa using hany e he
      · cases allowed with
        | none => exact (pure_ok.1 h).symm
        | some names =>
          simp only at h
          split at h
          · cases h
          · exact (pure_ok.1 h).symm
    · rintro ⟨_, m, key, patch, ⟨⟩, hm, hkey, hpatch, hallowed, rfl⟩
      refine ⟨m, hm, key, hkey, patch, hpatch, ?_⟩
      cases allowed with
      | none => rfl
      | some names =>
        have hany : ¬ (patch.fields.any fun e => !names.contains e.1) = true := by
          simpa using hallowed names rfl
        simp only
        rw [if_neg hany]
        rfl
  | _ => simp [Json.asObject]

end

/-- Two normalized arguments of one cardinality, operand by operand. -/
def OperandsRel (R : Json → Json → Prop) (cardinality : Cardinality) (a b : Json) : Prop :=
  ∃ xs ys, operands cardinality a = .ok xs ∧ operands cardinality b = .ok ys ∧ List.Forall₂ R xs ys

/-- An argument whose operands normalize alike normalizes alike. -/
theorem normalizeCardinality_same {one one' : Json → Except String Json} {cardinality : Cardinality} {v w : Json}
    (hone : ∀ xs, operands cardinality v = .ok xs → ∀ x ∈ xs, ∀ y, one x = .ok y → one' x = .ok y)
    (h : normalizeCardinality cardinality v one = .ok w) : normalizeCardinality cardinality v one' = .ok w := by
  cases cardinality with
  | single => exact hone [v] rfl v (by simp) w h
  | optional =>
    unfold normalizeCardinality at h ⊢
    by_cases hv : v.isNull = true
    · simpa [hv] using h
    · rw [if_neg hv] at h ⊢
      exact hone [v] (by simp [operands, hv]) v (by simp) w h
  | list =>
    unfold normalizeCardinality at h ⊢
    cases hv : v.asArray with
    | none => simp [hv] at h
    | some xs =>
      simp only [hv, map_ok, mapM_ok] at h ⊢
      obtain ⟨ys, hys, rfl⟩ := h
      refine ⟨ys, List.forall₂_iff_zip.2 ⟨hys.length_eq, fun hmem => ?_⟩, rfl⟩
      have hxs : operands .list v = .ok xs := by simp [operands, hv]
      exact hone xs hxs _ (List.of_mem_zip hmem).1 _ ((List.forall₂_iff_zip.1 hys).2 hmem)

/-- An argument is normalized operand by operand. -/
theorem normalizeCardinality_rel {R : Json → Json → Prop} {one one' : Json → Except String Json}
    {cardinality : Cardinality} {v w : Json} (hR : ∀ y y', R y y' → y.isNull = false ∧ y'.isNull = false)
    (hone : ∀ xs, operands cardinality v = .ok xs → ∀ x ∈ xs, ∀ y, one x = .ok y → ∃ y', one' x = .ok y' ∧ R y y')
    (h : normalizeCardinality cardinality v one = .ok w) :
    ∃ w', normalizeCardinality cardinality v one' = .ok w' ∧ OperandsRel R cardinality w w' := by
  cases cardinality with
  | single =>
    obtain ⟨w', hw', hr⟩ := hone [v] rfl v (by simp) w h
    exact ⟨w', hw', [w], [w'], rfl, rfl, .cons hr .nil⟩
  | optional =>
    unfold normalizeCardinality at h ⊢
    by_cases hv : v.isNull = true
    · simp only [hv, if_true, Except.ok.injEq] at h ⊢
      subst h
      exact ⟨_, rfl, [], [], rfl, rfl, .nil⟩
    · rw [if_neg hv] at h ⊢
      obtain ⟨w', hw', hr⟩ := hone [v] (by simp [operands, hv]) v (by simp) w h
      refine ⟨w', hw', [w], [w'], ?_, ?_, .cons hr .nil⟩
      · simp [operands, (hR _ _ hr).1]
      · simp [operands, (hR _ _ hr).2]
  | list =>
    unfold normalizeCardinality at h ⊢
    cases hv : v.asArray with
    | none => simp [hv] at h
    | some xs =>
      simp only [hv, map_ok, mapM_ok] at h ⊢
      obtain ⟨ys, hys, rfl⟩ := h
      have hops : operands .list v = .ok xs := by simp [operands, hv]
      have hex : ∃ zs, List.Forall₂ (fun x z => one' x = .ok z) xs zs ∧ List.Forall₂ R ys zs := by
        have hstep := hone xs hops
        clear hops hv
        induction hys with
        | nil => exact ⟨[], .nil, .nil⟩
        | @cons x y xs ys hy _ ih =>
          obtain ⟨z, hz, hr⟩ := hstep x (by simp) y hy
          obtain ⟨zs, hzs, hrs⟩ := ih fun x hx => hstep x (by simp [hx])
          exact ⟨z :: zs, .cons hz hzs, .cons hr hrs⟩
      obtain ⟨zs, hzs, hrs⟩ := hex
      exact ⟨.arr zs, ⟨zs, hzs, rfl⟩, ys, zs, rfl, rfl, hrs⟩

/-- Every operand of a normalized argument was normalized. -/
theorem normalizeCardinality_ok {one : Json → Except String Json} {cardinality : Cardinality} {v w : Json}
    (h : normalizeCardinality cardinality v one = .ok w) :
    ∀ xs, operands cardinality v = .ok xs → ∀ x ∈ xs, ∃ y, one x = .ok y := by
  intro xs hxs x hx
  cases cardinality with
  | single =>
    cases hxs
    rw [List.mem_singleton] at hx
    exact ⟨w, hx ▸ h⟩
  | optional =>
    unfold normalizeCardinality at h
    by_cases hv : v.isNull = true
    · simp only [operands, hv, if_true, Except.ok.injEq] at hxs
      simp [← hxs] at hx
    · rw [if_neg hv] at h
      simp only [operands, if_neg hv, Except.ok.injEq] at hxs
      rw [← hxs, List.mem_singleton] at hx
      exact ⟨w, hx ▸ h⟩
  | list =>
    unfold normalizeCardinality at h
    cases hv : v.asArray with
    | none => simp [hv] at h
    | some ys =>
      simp only [operands, hv, Except.ok.injEq] at hxs
      simp only [hv, map_ok, mapM_ok] at h
      obtain ⟨zs, hzs, -⟩ := h
      obtain ⟨y, -, hy⟩ := forall₂_mem_left hzs (hxs ▸ hx)
      exact ⟨y, hy⟩

end Axton
