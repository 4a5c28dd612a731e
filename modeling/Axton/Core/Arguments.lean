import Axton.Core.Widening

/-!
# Reading arguments against a wider contract

`normalize_action_args` over two contracts of one action, the second at least as wide as the first:
what the first accepts the second accepts, with created records widened, exactly when no update
carries a field outside a patch list its slot did not have before.
-/

namespace Axton

/-- A declared input of the wider contract: the same but for a patch list that lost no field. -/
inductive InputWidens (O N : Schema) : ActionInput → ActionInput → Prop
  | value (name : String) (ty : ValueType) (nullable list : Bool) :
    InputWidens O N (.value name ty nullable list) (.value name ty nullable list)
  | model {name model : String} {operation : OperationKind} {cardinality : Cardinality}
      {allowed allowed' : Option (List String)} {bindings : List Binding}
      (keeps : ∀ names, allowed = some names → ∀ f ∈ names, ∃ names', allowed' = some names' ∧ f ∈ names')
      (creates : operation = .create → ∀ m m', O.model model = .ok m → N.model model = .ok m' → m.Creates m') :
    InputWidens O N (.model name model operation cardinality allowed bindings)
      (.model name model operation cardinality allowed' bindings)

theorem InputWidens.name {O N : Schema} {i i' : ActionInput} (h : InputWidens O N i i') : i'.name = i.name := by
  cases h <;> rfl

/-- The operands of an update slot stay inside a patch list the slot did not have before. -/
def InputKept (O : Schema) (i i' : ActionInput) (v : Json) : Prop :=
  ∀ name model cardinality bindings names, i = .model name model .update cardinality none bindings →
    i' = .model name model .update cardinality (some names) bindings →
    ∀ m, O.model model = .ok m → ∀ xs, operands cardinality v = .ok xs →
      ∀ x ∈ xs, ∀ e ∈ x.fields, e.1 ∈ m.identity ∨ e.1 ∈ names

/-- Normalized arguments of an input: equal, or created records widened operand by operand. -/
def InputRel (O N : Schema) (i : ActionInput) (a b : Json) : Prop :=
  a = b ∨ ∃ name model cardinality allowed bindings m m', i = .model name model .create cardinality allowed bindings ∧
    O.model model = .ok m ∧ N.model model = .ok m' ∧ OperandsRel (RecordWidened m m') cardinality a b

theorem normalizeModelInput_model {P : Platform} {S : Schema} {model : String} {operation : OperationKind}
    {allowed : Option (List String)} {v w : Json} (h : normalizeModelInput P S model operation allowed v = .ok w) :
    ∃ m, S.model model = .ok m := by
  cases operation with
  | create =>
    obtain ⟨_, m, _, _, _, hm, -⟩ := normalizeCreate_ok.1 h
    exact ⟨m, hm⟩
  | update =>
    obtain ⟨_, m, _, _, _, hm, -⟩ := normalizeUpdate_ok.1 h
    exact ⟨m, hm⟩
  | delete =>
    obtain ⟨_, key, _, hkey, -⟩ := normalizeDelete_ok.1 h
    obtain ⟨m, _, _, hm, -⟩ := recordKey_ok.1 hkey
    exact ⟨m, hm⟩

theorem RecordWidened.isNull {m m' : ModelDescriptor} {r r' : Json} (h : RecordWidened m m' r r') :
    r.isNull = false ∧ r'.isNull = false := by
  obtain ⟨fs, fs', rfl, rfl, -⟩ := h
  exact ⟨rfl, rfl⟩

section
variable {P : Platform} {O N : Schema} (W : O.Widens N)
include W

/-- An input the first contract accepts is accepted by the second. -/
theorem normalizeInput_widens {i i' : ActionInput} (hi : InputWidens O N i i') {v w : Json} (hkept : InputKept O i i' v)
    (h : normalizeInput P O i v = .ok w) : ∃ w', normalizeInput P N i' v = .ok w' ∧ InputRel O N i w w' := by
  cases hi with
  | value name ty nullable list => exact ⟨w, normalizeValue_widens W rfl h, .inl rfl⟩
  | @model name model operation cardinality allowed allowed' bindings keeps creates =>
    cases operation with
    | create =>
      cases hm : O.model model with
      | error e =>
        -- no operand reads an unknown model
        refine ⟨w, normalizeCardinality_same (fun xs hxs x hx y hy => ?_) h, .inl rfl⟩
        obtain ⟨m, hm'⟩ := normalizeModelInput_model hy
        cases hm.symm.trans hm'
      | ok m =>
        obtain ⟨m', hm', M⟩ := W.models model m hm
        have hone : ∀ xs, operands cardinality v = .ok xs → ∀ x ∈ xs, ∀ y,
            normalizeModelInput P O model .create allowed x = .ok y →
            ∃ y', normalizeModelInput P N model .create allowed' x = .ok y' ∧ RecordWidened m m' y y' :=
          fun _ _ _ _ _ hy => normalizeCreate_widens W hm hm' M (creates rfl m m' hm hm') hy
        obtain ⟨w', hw', hrel⟩ := normalizeCardinality_rel (fun _ _ hr => hr.isNull) hone h
        exact ⟨w', hw', .inr ⟨name, model, cardinality, allowed, bindings, m, m', rfl, hm, hm', hrel⟩⟩
    | update =>
      refine ⟨w, normalizeCardinality_same (fun xs hxs x hx y hy => normalizeUpdate_widens W keeps ?_ hy) h, .inl rfl⟩
      rintro m hm names rfl rfl
      exact hkept name model cardinality bindings names rfl rfl m hm xs hxs x hx
    | delete => exact ⟨w, normalizeCardinality_same (fun _ _ _ _ _ hy => normalizeDelete_widens W hy) h, .inl rfl⟩

/-- An input the second contract accepts stays inside its patch list. -/
theorem normalizeInput_kept {i i' : ActionInput} {v w : Json} (h : normalizeInput P N i' v = .ok w) : InputKept O i i' v := by
  rintro name model cardinality bindings names rfl rfl m hm xs hxs x hx e he
  obtain ⟨y, hy⟩ := normalizeCardinality_ok h xs hxs x hx
  have hkept : PatchKept m.identity none (some names) x := normalizeUpdate_kept W hm hy
  exact hkept names rfl rfl e he

end

/-! ## Argument objects -/

/-- What `normalize_inputs` stores for a declared input. -/
def inputValue (P : Platform) (S : Schema) (object : Fields) (i : ActionInput) : Except String Json :=
  inputArgument i object >>= normalizeInput P S i

theorem normalizeInputs_ok {P : Platform} {S : Schema} {inputs : List ActionInput} {args w : Json} :
    normalizeInputs P S inputs args = .ok w ↔ ∃ object es, args = .obj object ∧
      (∀ e ∈ object, ∃ i ∈ inputs, i.name = e.1) ∧
      List.Forall₂ (fun i e => e.1 = i.name ∧ inputValue P S object i = .ok e.2) inputs es ∧
      w = .obj (Fields.extend [] es) := by
  unfold normalizeInputs
  cases args with
  | obj object =>
    have hfold (out : Fields) : inputs.foldlM (fun acc input => (do
        let v ← inputArgument input object
        return Fields.insert acc input.name (← normalizeInput P S input v) : Except String Fields)) [] = .ok out ↔
        ∃ es : Fields, List.Forall₂ (fun i e => e.1 = i.name ∧ inputValue P S object i = .ok e.2) inputs es ∧
          Fields.extend [] es = out := by
      refine foldlM_insert (·.name) (inputValue P S object) fun acc i => ?_
      unfold inputValue
      cases inputArgument i object with
      | error e => rfl
      | ok v => cases h : normalizeInput P S i v <;> simp [bind, Except.bind, Except.map, pure, Except.pure, h]
    simp only [Json.asObject]
    constructor
    · intro h
      split at h
      · cases h
      · rename_i hc
        simp only [bind_ok, pure_ok] at h
        obtain ⟨out, hout, rfl⟩ := h
        obtain ⟨es, hes, rfl⟩ := (hfold out).1 hout
        exact ⟨object, es, rfl, by simpa using hc, hes, rfl⟩
    · rintro ⟨_, es, ⟨⟩, hmem, hes, rfl⟩
      have hc : ¬ (object.any fun e => !(inputs.any (·.name = e.1))) = true := by simpa using hmem
      rw [if_neg hc]
      simp only [bind_ok, pure_ok]
      exact ⟨_, (hfold _).2 ⟨es, hes, rfl⟩, rfl⟩
  | _ => simp [Json.asObject]

/-- No update of these arguments carries a field outside a patch list its slot did not have before. -/
def PatchesKept (O : Schema) (inputs inputs' : List ActionInput) (args : Json) : Prop :=
  ∀ i i', (i, i') ∈ inputs.zip inputs' → InputKept O i i' (args.index i.name)

/-- The same arguments, up to null in nullable fields that created records gained. -/
def ArgsWidened (O N : Schema) (inputs : List ActionInput) (v v' : Json) : Prop :=
  ∃ o o', v = .obj o ∧ v' = .obj o' ∧ ∀ x, Fields.get o' x = Fields.get o x ∨
    ∃ i ∈ inputs, i.name = x ∧ ∃ a b, Fields.get o x = some a ∧ Fields.get o' x = some b ∧ InputRel O N i a b

/-- An operand that is read is the argument, or null when it may be absent. -/
theorem inputArgument_index {i : ActionInput} {object : Fields} {v : Json} (h : inputArgument i object = .ok v) :
    (Json.obj object).index i.name = v := by
  unfold inputArgument at h
  simp only [Json.index, Json.field, Json.asObject, Option.bind_some]
  cases hg : Fields.get object i.name with
  | some u =>
    simp only [hg, Except.ok.injEq] at h
    simpa using h
  | none =>
    simp only [hg] at h
    split at h
    · simpa using h
    · cases h

theorem inputArgument_same {O N : Schema} {i i' : ActionInput} (hi : InputWidens O N i i') (object : Fields) :
    inputArgument i' object = inputArgument i object := by
  cases hi with
  | value => rfl
  | @model _ _ _ cardinality => cases cardinality <;> rfl

section
variable {P : Platform} {O N : Schema} (W : O.Widens N) {inputs inputs' : List ActionInput}
  (H : List.Forall₂ (InputWidens O N) inputs inputs')
include W H

/-- The wider contract accepts the arguments the first one accepts. -/
theorem normalizeInputs_widens (hnodup : (inputs'.map (·.name)).Nodup) {args v : Json}
    (hkept : PatchesKept O inputs inputs' args) (h : normalizeInputs P O inputs args = .ok v) :
    ∃ v', normalizeInputs P N inputs' args = .ok v' ∧ ArgsWidened O N inputs v v' := by
  obtain ⟨object, es, rfl, hmem, hes, rfl⟩ := normalizeInputs_ok.1 h
  have hpair : List.Forall₂ (fun i i' => InputWidens O N i i' ∧ InputKept O i i' ((Json.obj object).index i.name))
      inputs inputs' :=
    List.forall₂_iff_zip.2 ⟨H.length_eq, fun hz => ⟨(List.forall₂_iff_zip.1 H).2 hz, hkept _ _ hz⟩⟩
  -- one input: the second contract reads the same argument and normalizes it alike
  have hone : ∀ i i', InputWidens O N i i' → InputKept O i i' ((Json.obj object).index i.name) → ∀ w,
      inputValue P O object i = .ok w → ∃ w', inputValue P N object i' = .ok w' ∧ InputRel O N i w w' := by
    intro i i' hi hk w hw
    unfold inputValue at hw ⊢
    obtain ⟨u, hu, hw⟩ := bind_ok.1 hw
    rw [inputArgument_index hu] at hk
    obtain ⟨w', hw', hrel⟩ := normalizeInput_widens W hi hk hw
    exact ⟨w', bind_ok.2 ⟨u, by rw [inputArgument_same hi, hu], hw'⟩, hrel⟩
  obtain ⟨es', hes'⟩ : ∃ es' : Fields,
      List.Forall₂ (fun i e => e.1 = i.name ∧ inputValue P N object i = .ok e.2) inputs' es' := by
    refine forall₂_exists fun i' hi' => ?_
    obtain ⟨i, hi, hw, hk⟩ := forall₂_mem_right hpair hi'
    obtain ⟨e, -, -, he⟩ := forall₂_mem_left hes hi
    obtain ⟨w', hw', -⟩ := hone i i' hw hk e.2 he
    exact ⟨(i'.name, w'), rfl, hw'⟩
  refine ⟨_, normalizeInputs_ok.2 ⟨object, es', rfl, fun e he => ?_, hes', rfl⟩, _, _, rfl, rfl, fun x => ?_⟩
  · obtain ⟨i, hi, hname⟩ := hmem e he
    obtain ⟨i', hi', hw, -⟩ := forall₂_mem_left hpair hi
    exact ⟨i', hi', hw.name.trans hname⟩
  · rcases Fields.get_extend [] es x with ⟨a, ha, hget⟩ | ⟨hno, hget⟩
    · obtain ⟨i, hi, hname, hval⟩ := forall₂_mem_right hes ha
      obtain ⟨i', hi', hw, hk⟩ := forall₂_mem_left hpair hi
      obtain ⟨b, hb, hrel⟩ := hone i i' hw hk a hval
      rcases Fields.get_extend [] es' x with ⟨b', hb', hget'⟩ | ⟨hno', -⟩
      · obtain ⟨j, hj, hjname, hjval⟩ := forall₂_mem_right hes' hb'
        have hij : i' = j := List.inj_on_of_nodup_map hnodup hi' hj (by rw [hw.name, ← hname, ← hjname])
        subst hij
        cases hb.symm.trans hjval
        exact .inr ⟨i, hi, hname.symm, a, b', hget, hget', hrel⟩
      · obtain ⟨e, he, hen, -⟩ := forall₂_mem_left hes' hi'
        exact absurd (hen.trans (hw.name.trans hname.symm)) (hno' e he)
    · rcases Fields.get_extend [] es' x with ⟨b', hb', -⟩ | ⟨-, hget'⟩
      · obtain ⟨i', hi', hname, -⟩ := forall₂_mem_right hes' hb'
        obtain ⟨i, hi, hw, -⟩ := forall₂_mem_right hpair hi'
        obtain ⟨e, he, hen, -⟩ := forall₂_mem_left hes hi
        exact absurd (hen.trans (hw.name.symm.trans hname.symm)) (hno e he)
      · exact .inl (hget'.trans hget.symm)

/-- Arguments the wider contract accepts stay inside its patch lists. -/
theorem normalizeInputs_kept {args v : Json} (h : normalizeInputs P N inputs' args = .ok v) :
    PatchesKept O inputs inputs' args := by
  obtain ⟨object, es, rfl, -, hes, -⟩ := normalizeInputs_ok.1 h
  intro i i' hz
  obtain ⟨e, -, -, he⟩ := forall₂_mem_left hes (List.of_mem_zip hz).2
  obtain ⟨u, hu, hw⟩ := bind_ok.1 he
  rw [← ((List.forall₂_iff_zip.1 H).2 hz).name, inputArgument_index hu]
  exact normalizeInput_kept W hw

end

/-! ## Bindings -/

/-- A field the first model declares reads the same in a widened record. -/
theorem RecordWidened.field {m m' : ModelDescriptor} {r r' : Json} (h : RecordWidened m m' r r') {name : String}
    (hf : (m.field name).isSome) : r'.field name = r.field name := by
  obtain ⟨fs, fs', rfl, rfl, hget⟩ := h
  rcases hget name with he | ⟨-, -, hnone, -⟩
  · exact he
  · simp [hnone] at hf

theorem Fields.pick_congr {fs fs' : Fields} {names : List String} (h : ∀ n ∈ names, Fields.get fs' n = Fields.get fs n) :
    Fields.pick fs' names = Fields.pick fs names := by
  unfold Fields.pick
  generalize ([] : Fields) = acc
  induction names generalizing acc with
  | nil => rfl
  | cons n names ih =>
    simp only [List.foldl_cons, h n (by simp)]
    exact ih (fun k hk => h k (by simp [hk])) _

/-- A record with a key declares its identity fields. -/
theorem recordKey_fields {P : Platform} {S : Schema} {name : String} {v : Json} {key : RecordKey} {m : ModelDescriptor}
    (hm : S.model name = .ok m) (h : S.recordKey P name v = .ok key) : ∀ n ∈ m.identity, (m.field n).isSome := by
  obtain ⟨m₀, input, out, hm₀, -, -, -, hout, -⟩ := recordKey_ok.1 h
  cases hm.symm.trans hm₀
  obtain ⟨es, hes, -⟩ := identityFields_ok.1 hout
  intro n hn
  obtain ⟨e, -, -, he⟩ := forall₂_mem_left hes hn
  unfold identityValue at he
  cases hf : m.field n with
  | none => simp [hf] at he
  | some f => rfl

/-- One operand agrees with the record its binding names. -/
def BindingHolds (operation : OperationKind) (key : RecordKey) (pairs : List (String × String)) (target : Json) : Prop :=
  ∀ p ∈ pairs, match target.field p.1 with
    | some actual => actual = key.identity.index p.2
    | none => operation ≠ .create

/-- The type loop over the paired fields of a binding. -/
theorem forM_bindingTypes {targetDesc sourceDesc : ModelDescriptor} {pairs : List (String × String)} :
    (pairs.forM fun (loc, remote) => (do
      let some t := targetDesc.field loc | .error "Action binding target field missing"
      let some s := sourceDesc.field remote | .error "Action binding source field missing"
      if t.valueType ≠ s.valueType then .error "Action binding field type mismatch" else .ok () : Except String Unit)) = .ok () ↔
    ∀ p ∈ pairs, ∃ t s, targetDesc.field p.1 = some t ∧ sourceDesc.field p.2 = some s ∧ t.valueType = s.valueType := by
  rw [List.forM_eq_forM, forM_ok]
  refine forall₂_congr fun p _ => ?_
  cases ht : targetDesc.field p.1 <;> cases hs : sourceDesc.field p.2 <;> simp [ht, hs]

/-- The value loop over them, on one target. -/
theorem forM_bindingHolds {operation : OperationKind} {key : RecordKey} {pairs : List (String × String)} {target : Json} :
    (pairs.forM fun (loc, remote) => (match target.field loc with
      | some actual => if actual ≠ key.identity.index remote then .error "Action binding mismatch" else .ok ()
      | none => if operation = OperationKind.create then .error "Action binding create field missing" else .ok () :
        Except String Unit)) = .ok () ↔
    BindingHolds operation key pairs target := by
  rw [List.forM_eq_forM, forM_ok]
  refine forall₂_congr fun p _ => ?_
  cases ht : target.field p.1 <;> simp [ht]

theorem validateBinding_ok {P : Platform} {S : Schema} {a : ActionDescriptor} {args : Json} {model : String}
    {operation : OperationKind} {targets : List Json} {b : Binding} :
    validateBinding P S a args model operation targets b = .ok () ↔
      ∃ name sourceModel sourceOperation allowed bindings, a.inputs.find? (·.name = b.slot) =
          some (.model name sourceModel sourceOperation .single allowed bindings) ∧
        (args.index b.slot).isNull = false ∧ ∃ sourceDesc key targetDesc, S.model sourceModel = .ok sourceDesc ∧
          S.recordKey P sourceModel (.obj (Fields.pick (args.index b.slot).fields sourceDesc.identity)) = .ok key ∧
          b.fields.length = sourceDesc.identity.length ∧ S.model model = .ok targetDesc ∧
          (∀ p ∈ b.fields.zip sourceDesc.identity, ∃ t s, targetDesc.field p.1 = some t ∧
            sourceDesc.field p.2 = some s ∧ t.valueType = s.valueType) ∧
          ∀ target ∈ targets, BindingHolds operation key (b.fields.zip sourceDesc.identity) target := by
  unfold validateBinding
  cases hfind : a.inputs.find? (·.name = b.slot) with
  | none => simp
  | some source =>
    cases source with
    | value => simp
    | model name sourceModel sourceOperation cardinality allowed bindings =>
      simp only
      constructor
      · intro h
        split at h
        · cases h
        · rename_i hcard
          split at h
          · cases h
          · rename_i hnull
            simp only [bind_ok] at h
            obtain ⟨sourceDesc, hsource, key, hkey, h⟩ := h
            split at h
            · cases h
            · rename_i hlen
              simp only [bind_ok] at h
              obtain ⟨targetDesc, htarget, _, htyped, h⟩ := h
              rw [List.forM_eq_forM, forM_ok] at h
              refine ⟨name, sourceModel, sourceOperation, allowed, bindings, ?_, by simpa using hnull, sourceDesc, key,
                targetDesc, hsource, hkey, not_not.1 hlen, htarget, forM_bindingTypes.1 htyped, fun t ht => forM_bindingHolds.1 (h t ht)⟩
              rw [not_not.1 hcard]
      · rintro ⟨n, sm, so, al, bs, he, hnull, sourceDesc, key, targetDesc, hsource, hkey, hlen, htarget, htyped, hall⟩
        cases he
        simp only [ne_eq, not_true_eq_false, if_false, hnull, Bool.false_eq_true, bind_ok]
        refine ⟨sourceDesc, hsource, key, hkey, ?_⟩
        simp only [hlen, not_true_eq_false, if_false, bind_ok]
        refine ⟨targetDesc, htarget, (), forM_bindingTypes.2 htyped, ?_⟩
        rw [List.forM_eq_forM, forM_ok]
        exact fun t ht => forM_bindingHolds.2 (hall t ht)

section
variable {P : Platform} {O N : Schema} (W : O.Widens N) {a a' : ActionDescriptor}
  (H : List.Forall₂ (InputWidens O N) a.inputs a'.inputs) {v v' : Json}
  (hargs : ∀ i ∈ a.inputs, InputRel O N i (v.index i.name) (v'.index i.name))
include W H hargs

/-- A binding that holds of the arguments holds of the widened ones. -/
theorem validateBinding_widens {model : String} {operation : OperationKind} {targets targets' : List Json} {b : Binding}
    (htargets : List.Forall₂ (fun t t' => t = t' ∨ ∃ m m', O.model model = .ok m ∧ N.model model = .ok m' ∧
      RecordWidened m m' t t') targets targets')
    (h : validateBinding P O a v model operation targets b = .ok ()) :
    validateBinding P N a' v' model operation targets' b = .ok () := by
  obtain ⟨name, sourceModel, sourceOperation, allowed, bindings, hfind, hnull, sourceDesc, key, targetDesc, hsource, hkey,
    hlen, htarget, htyped, hall⟩ := validateBinding_ok.1 h
  obtain ⟨sourceDesc', hsource', M⟩ := W.models _ _ hsource
  obtain ⟨targetDesc', htarget', M'⟩ := W.models _ _ htarget
  obtain ⟨source', hfind', hw⟩ := forall₂_find (R := fun i' i => InputWidens O N i i') (p := (·.name = b.slot))
    (fun i' i hi => by simp [hi.name]) H.flip hfind
  have hin := List.mem_of_find?_eq_some hfind
  have hfound := List.find?_some hfind
  have hslot : name = b.slot := of_decide_eq_true hfound
  have hrel : InputRel O N _ (v.index b.slot) (v'.index b.slot) := hslot ▸ hargs _ hin
  -- the source record has the same identity
  have hsame : (v'.index b.slot).isNull = false ∧
      Fields.pick (v'.index b.slot).fields sourceDesc.identity = Fields.pick (v.index b.slot).fields sourceDesc.identity := by
    rcases hrel with heq | ⟨_, _, _, _, _, m, m', he, hm, hm', xs, ys, hxs, hys, hxy⟩
    · rw [← heq]
      exact ⟨hnull, rfl⟩
    · cases he
      cases hxs
      cases hys
      cases hm.symm.trans hsource
      cases hxy with
      | cons hr _ =>
        refine ⟨hr.isNull.2, Fields.pick_congr fun n hn => ?_⟩
        have hfield := hr.field (recordKey_fields hsource hkey n hn)
        obtain ⟨fs, fs', hfs, hfs', -⟩ := hr
        rw [hfs, hfs'] at hfield ⊢
        exact hfield
  cases hw with
  | @model _ _ _ _ _ allowed' _ keeps creates =>
    refine validateBinding_ok.2 ⟨name, sourceModel, sourceOperation, allowed', bindings, hfind', hsame.1, sourceDesc', key,
      targetDesc', hsource', ?_, by rw [M.identity, hlen], htarget', ?_, ?_⟩
    · rw [M.identity, hsame.2]
      exact recordKey_widens W hkey
    · rw [M.identity]
      intro p hp
      obtain ⟨t, s, ht, hs, hts⟩ := htyped p hp
      obtain ⟨t', ht', htype⟩ := M'.field ht
      obtain ⟨s', hs', hstype⟩ := M.field hs
      exact ⟨t', s', ht', hs', by rw [htype, hstype, hts]⟩
    · rw [M.identity]
      intro t' ht' p hp
      obtain ⟨t, ht, htt⟩ := forall₂_mem_right htargets ht'
      have hfield : t'.field p.1 = t.field p.1 := by
        rcases htt with rfl | ⟨m, m', hm, -, hr⟩
        · rfl
        · cases hm.symm.trans htarget
          obtain ⟨f, -, hf, -⟩ := htyped p hp
          exact hr.field (by simp [hf])
      rw [hfield]
      exact hall t ht p hp

/-- Bindings that hold of the arguments hold of the widened ones. -/
theorem validateActionBindings_widens (h : validateActionBindings P O a v = .ok ()) :
    validateActionBindings P N a' v' = .ok () := by
  unfold validateActionBindings at h ⊢
  rw [List.forM_eq_forM, forM_ok] at h ⊢
  intro i' hi'
  obtain ⟨i, hi, hw⟩ := forall₂_mem_right H hi'
  have hrel := hargs i hi
  have hold := h i hi
  cases hw with
  | value => rfl
  | @model name model operation cardinality allowed allowed' bindings keeps creates =>
    simp only [bind_ok] at hold ⊢
    obtain ⟨targets, htargets, hold⟩ := hold
    have hex : ∃ targets', operands cardinality (v'.index name) = .ok targets' ∧
        List.Forall₂ (fun t t' => t = t' ∨ ∃ m m', O.model model = .ok m ∧ N.model model = .ok m' ∧
          RecordWidened m m' t t') targets targets' := by
      rcases hrel with heq | ⟨_, _, _, _, _, m, m', he, hm, hm', xs, ys, hxs, hys, hxy⟩
      · refine ⟨targets, ?_, List.forall₂_same.2 fun t _ => .inl rfl⟩
        rw [show v'.index name = v.index name from heq.symm]
        exact htargets
      · cases he
        cases htargets.symm.trans hxs
        exact ⟨ys, hys, hxy.imp fun t t' ht => .inr ⟨m, m', hm, hm', ht⟩⟩
    obtain ⟨targets', hops, hrels⟩ := hex
    refine ⟨targets', hops, ?_⟩
    cases hrels with
    | nil => rfl
    | cons hr hrs =>
      simp only [List.isEmpty_cons, Bool.false_eq_true, if_false, List.forM_eq_forM, forM_ok] at hold ⊢
      exact fun b hb => validateBinding_widens W H hargs (.cons hr hrs) (hold b hb)

end

theorem normalizeActionArgs_ok {P : Platform} {S : Schema} {a : ActionDescriptor} {args v : Json} :
    normalizeActionArgs P S a args = .ok v ↔ normalizeInputs P (S.inputSchema a) a.inputs args = .ok v ∧
      validateActionBindings P (S.inputSchema a) a v = .ok () := by
  unfold normalizeActionArgs
  simp only [bind_ok, pure_ok]
  constructor
  · rintro ⟨w, hw, _, hb, rfl⟩
    exact ⟨hw, hb⟩
  · rintro ⟨hw, hb⟩
    exact ⟨v, hw, (), hb, rfl⟩

/-- Arguments an action accepts are accepted under a wider contract, with created records widened,
exactly when its updates stay inside the patch lists the contract gained. -/
theorem normalizeActionArgs_widens {P : Platform} {S S' : Schema} {a a' : ActionDescriptor}
    (W : (S.inputSchema a).Widens (S'.inputSchema a'))
    (H : List.Forall₂ (InputWidens (S.inputSchema a) (S'.inputSchema a')) a.inputs a'.inputs)
    (hnodup : (a'.inputs.map (·.name)).Nodup) {args v : Json} (h : normalizeActionArgs P S a args = .ok v) :
    (∃ v', normalizeActionArgs P S' a' args = .ok v' ∧
      ArgsWidened (S.inputSchema a) (S'.inputSchema a') a.inputs v v') ↔
      PatchesKept (S.inputSchema a) a.inputs a'.inputs args := by
  obtain ⟨hv, hb⟩ := normalizeActionArgs_ok.1 h
  constructor
  · rintro ⟨v', hv', -⟩
    exact normalizeInputs_kept W H (normalizeActionArgs_ok.1 hv').1
  · intro hkept
    obtain ⟨v', hv', hwide⟩ := normalizeInputs_widens W H hnodup hkept hv
    refine ⟨v', normalizeActionArgs_ok.2 ⟨hv', validateActionBindings_widens W H ?_ hb⟩, hwide⟩
    obtain ⟨o, o', rfl, rfl, hget⟩ := hwide
    intro i hi
    simp only [Json.index, Json.field, Json.asObject, Option.bind_some]
    rcases hget i.name with heq | ⟨j, hj, hname, x, y, hx, hy, hrel⟩
    · exact .inl (by rw [heq])
    · have hnodup' : (a.inputs.map (·.name)).Nodup := by
        rwa [← map_eq_of_forall₂ (H.imp fun _ _ hw => hw.name)]
      have hji : j = i := List.inj_on_of_nodup_map hnodup' hj hi hname
      subst hji
      rw [hx, hy]
      exact hrel

end Axton
