import Axton.Core.ReadContract
import Axton.Core.Reader
import Mathlib.Data.List.Dedup

/-!
# Materialization contracts

Model of `crates/core/src/materialization.rs`: the part of a schema that decides what a stored record
means, as one JSON value. Every model is described at the version its records are kept at, by the current
descriptor where that is the current version and by the retained one otherwise, with the enums its fields
reach. Lists whose order does not matter are sorted, so that a contract is a canonical description.
-/

namespace Axton

/-- `BTreeMap<String, u64>`: the version of every model, by name. -/
structure ModelVersions where
  entries : List (String × Nat)
  ordered : entries.Pairwise fun a b => a.1 < b.1

def scalarName : ScalarType → String
  | .string => "string"
  | .boolean => "boolean"
  | .int => "int"
  | .float => "float"
  | .dateTime => "dateTime"
  | .uuid => "uuid"

/-- A type as serde writes it (schema.rs:134). -/
def typeJson : ValueType → Json
  | .scalar name => .obj [("kind", .str "scalar"), ("name", .str (scalarName name))]
  | .enum name => .obj [("kind", .str "enum"), ("name", .str name)]
  | .list element => .obj [("element", typeJson element), ("kind", .str "list")]

def fieldJson (f : FieldDescriptor) : Json :=
  .obj [("name", .str f.name), ("nullable", .bool f.nullable), ("type", typeJson f.valueType)]

/-- The fields by name (materialization.rs:46). -/
def fieldContracts (fields : List FieldDescriptor) : Except String Fields :=
  fields.foldlM (fun acc f =>
    if Fields.contains acc f.name then .error "duplicate materialization field"
    else .ok (Fields.insert acc f.name (fieldJson f))) []

/-- The enums that fields reach, in order (materialization.rs:44). -/
def reachableEnums (fields : List FieldDescriptor) : List String :=
  (fields.flatMap (·.valueType.enums)).dedup.insertionSort (· ≤ ·)

def enumContract (available : List EnumDescriptor) (name : String) : Except String Json :=
  match available.find? (·.name = name) with
  | some e => .ok (.obj [("name", .str name), ("values", .arr ((e.values.insertionSort (· ≤ ·)).map .str))])
  | none => .error "materialization enum missing"

/-- One model of the contract. -/
def describe (bootstrap : Bool) (name : String) (version : Nat) (d : ModelReadDescriptor) : Except String Json := do
  let fields ← fieldContracts d.fields
  let enums ← (reachableEnums d.fields).mapM (enumContract d.enums)
  return .obj [("bootstrap", .bool bootstrap), ("enums", .arr enums), ("fields", .arr (fields.map (·.2))),
    ("identity", .arr ((d.identity.insertionSort (· ≤ ·)).map .str)), ("name", .str name), ("version", .num (.posInt version))]

namespace Schema

/-- What a version is read by: the current model, or a retained contract (materialization.rs:31). -/
def sourceOf (S : Schema) (current : ModelDescriptor) (version : Nat) : Except String ModelReadDescriptor :=
  if current.version = version then .ok (current.current S.enums)
  else match S.resultModels.find? fun d => d.name = current.name && d.version = version with
    | some d => .ok d
    | none => .error "retained materialization contract missing"

def modelContract (S : Schema) (entry : String × Nat) : Except String Json := do
  if counter entry.2 = false then .error "counter outside safe integer range"
  else if entry.2 = 0 then .error "positive counter required"
  else
    let current ← S.model entry.1
    let d ← S.sourceOf current entry.2
    describe current.bootstrap entry.1 entry.2 d

/-- `contract` (materialization.rs:5). -/
def contract (S : Schema) (models : ModelVersions) (projection : String) : Except String Json := do
  if nonblank projection = false then .error "blank identifier"
  else if models.entries.length ≠ S.models.length then .error "materialization needs every Model"
  else
    let contracts ← models.entries.mapM S.modelContract
    return .obj [("models", .arr contracts), ("projectionGeneration", .str projection)]

/-- `materialization_id_for` (protocols/src/sync/mutation.rs:175): a digest of the canonical text. -/
def materializationId (digest : String → String) (number : Rat → String) (S : Schema) (models : ModelVersions)
    (projection : String) : Except String String := do
  let c ← S.contract models projection
  return digest ("axton:materialization:5\x00" ++ canonicalJson number c)

/-- The schema that reads a version of a model: the live one, or that of the retained contract alone. -/
def reader (S : Schema) (name : String) (version : Nat) : Except String Schema := do
  let current ← S.model name
  if current.version = version then return S
  else
    let d ← S.sourceOf current version
    return readSchema S d

end Schema

/-! ## Sorted lists -/

theorem insertionSort_eq_iff {xs ys : List String} :
    xs.insertionSort (· ≤ ·) = ys.insertionSort (· ≤ ·) ↔ xs.Perm ys := by
  have hperm (l : List String) : (l.insertionSort (· ≤ ·)).Perm l := List.perm_insertionSort (· ≤ ·) l
  constructor
  · intro h
    exact (hperm xs).symm.trans ((List.Perm.of_eq h).trans (hperm ys))
  · intro h
    exact ((hperm xs).trans (h.trans (hperm ys).symm)).eq_of_pairwise (fun _ _ _ _ hab hba => le_antisymm hab hba)
      (List.pairwise_insertionSort (· ≤ ·) xs) (List.pairwise_insertionSort (· ≤ ·) ys)

theorem mem_reachableEnums {fields : List FieldDescriptor} {n : String} :
    n ∈ reachableEnums fields ↔ ∃ f ∈ fields, n ∈ f.valueType.enums := by
  simp [reachableEnums, List.mem_dedup]

/-! ## Descriptions -/

theorem scalarName_inj {a b : ScalarType} (h : scalarName a = scalarName b) : a = b := by
  cases a <;> cases b <;> first | rfl | (revert h; decide)

theorem typeJson_inj {a b : ValueType} (h : typeJson a = typeJson b) : a = b := by
  induction a generalizing b with
  | scalar name =>
    cases b with
    | scalar name' =>
      simp only [typeJson, Json.obj.injEq, List.cons.injEq, Prod.mk.injEq, Json.str.injEq, true_and, and_true] at h
      rw [scalarName_inj h]
    | enum name' => simp [typeJson] at h
    | list element => simp [typeJson] at h
  | enum name =>
    cases b with
    | scalar name' => simp [typeJson] at h
    | enum name' => simpa [typeJson] using h
    | list element => simp [typeJson] at h
  | list element ih =>
    cases b with
    | scalar name' => simp [typeJson] at h
    | enum name' => simp [typeJson] at h
    | list element' =>
      simp only [typeJson, Json.obj.injEq, List.cons.injEq, Prod.mk.injEq, true_and, and_true] at h
      rw [ih h]

/-- Fields that read alike, apart from their enums. -/
def SameField (f f' : FieldDescriptor) : Prop :=
  f'.name = f.name ∧ f'.nullable = f.nullable ∧ f'.valueType = f.valueType

theorem fieldJson_eq_iff {f f' : FieldDescriptor} : fieldJson f' = fieldJson f ↔ SameField f f' := by
  constructor
  · intro h
    simp only [fieldJson, Json.obj.injEq, List.cons.injEq, Prod.mk.injEq, Json.str.injEq, Json.bool.injEq, true_and,
      and_true] at h
    exact ⟨h.1, h.2.1, typeJson_inj h.2.2⟩
  · rintro ⟨hname, hnull, htype⟩
    rw [fieldJson, fieldJson, hname, hnull, htype]

/-- Distinct fields are described by name. -/
theorem fieldContracts_ok {fields : List FieldDescriptor} (hn : (fields.map (·.name)).Nodup) :
    ∃ out, fieldContracts fields = .ok out ∧ Collects (·.name) (fun f => .ok (fieldJson f)) fields out := by
  have hloop : ∀ (fields : List FieldDescriptor) (acc : Fields), (fields.map (·.name)).Nodup →
      (∀ f ∈ fields, Fields.contains acc f.name = false) →
      fields.foldlM (fun acc f => if Fields.contains acc f.name then
        (.error "duplicate materialization field" : Except String Fields) else .ok (Fields.insert acc f.name (fieldJson f))) acc =
          .ok (Fields.extend acc (fields.map fun f => (f.name, fieldJson f))) := by
    intro fields
    induction fields with
    | nil => exact fun _ _ _ => rfl
    | cons f fields ih =>
      intro acc hn hfresh
      rw [List.map_cons, List.nodup_cons] at hn
      have hnew : Fields.contains acc f.name = false := hfresh f (by simp)
      have hrest := ih (Fields.insert acc f.name (fieldJson f)) hn.2 fun g hg => by
        have hne : f.name ≠ g.name := fun hname => hn.1 (List.mem_map.2 ⟨g, hg, hname.symm⟩)
        have hg := hfresh g (by simp [hg])
        simp only [Fields.contains] at hg ⊢
        rw [Fields.get_insert, if_neg hne, hg]
      rw [List.foldlM_cons, hnew]
      exact hrest
  refine ⟨_, hloop fields [] hn (fun _ _ => rfl), (Collects.iff_collected hn).1 ⟨fields.map fun f => (f.name, fieldJson f), ?_, rfl⟩⟩
  rw [List.forall₂_map_right_iff]
  exact List.forall₂_same.2 fun f _ => ⟨rfl, rfl⟩

/-- Descriptors that differ only in order, and in what no reader looks at. -/
structure Described (d d' : ModelReadDescriptor) : Prop where
  identity : d.identity.Perm d'.identity
  toward : ∀ f ∈ d.fields, ∃ f' ∈ d'.fields, SameField f f'
  back : ∀ f' ∈ d'.fields, ∃ f ∈ d.fields, SameField f f'
  enums : ∀ f ∈ d.fields, ∀ e ∈ d.enums, ∀ e' ∈ d'.enums, e.name ∈ f.valueType.enums → e'.name = e.name →
    e.values.Perm e'.values

theorem find_enum {enums : List EnumDescriptor} (hn : (enums.map (·.name)).Nodup) {e : EnumDescriptor} (he : e ∈ enums) :
    enums.find? (·.name = e.name) = some e := by
  cases hf : enums.find? (·.name = e.name) with
  | none =>
    have hno := List.find?_eq_none.1 hf e he
    simp at hno
  | some g =>
    have hname : g.name = e.name := by simpa using List.find?_some hf
    rw [List.inj_on_of_nodup_map hn (List.mem_of_find?_eq_some hf) he hname]

/-- The contract of an enum that is declared. -/
theorem enumContract_of_mem {enums : List EnumDescriptor} (hn : (enums.map (·.name)).Nodup) {e : EnumDescriptor} (he : e ∈ enums) :
    enumContract enums e.name =
      .ok (.obj [("name", .str e.name), ("values", .arr ((e.values.insertionSort (· ≤ ·)).map .str))]) := by
  rw [enumContract, find_enum hn he]

/-- A closed descriptor can be described. -/
theorem describe_ok {d : ModelReadDescriptor} (C : Closed d) (bootstrap : Bool) (name : String) (version : Nat) :
    ∃ fields enums, Collects (·.name) (fun f => .ok (fieldJson f)) d.fields fields ∧
      List.Forall₂ (fun n j => enumContract d.enums n = .ok j) (reachableEnums d.fields) enums ∧
      describe bootstrap name version d = .ok (.obj [("bootstrap", .bool bootstrap), ("enums", .arr enums),
        ("fields", .arr (fields.map (·.2))), ("identity", .arr ((d.identity.insertionSort (· ≤ ·)).map .str)),
        ("name", .str name), ("version", .num (.posInt version))]) := by
  obtain ⟨fields, hfields, hcollects⟩ := fieldContracts_ok C.fields
  have hall : ∀ n ∈ reachableEnums d.fields, ∃ j, enumContract d.enums n = .ok j := by
    intro n hn
    obtain ⟨f, hf, hnf⟩ := mem_reachableEnums.1 hn
    obtain ⟨e, he, rfl⟩ := C.declared f hf n hnf
    exact ⟨_, enumContract_of_mem C.enums he⟩
  obtain ⟨enums, henums⟩ := mapM_total hall
  refine ⟨fields, enums, hcollects, mapM_ok.1 henums, ?_⟩
  simp only [describe, hfields, henums, bind_ok, pure_ok, Except.ok.injEq, exists_eq_left']

/-- The fields that two equal field lists describe. -/
theorem fields_toward {fields fields' : List FieldDescriptor} {out out' : Fields}
    (h : Collects (·.name) (fun f => .ok (fieldJson f)) fields out)
    (h' : Collects (·.name) (fun f => .ok (fieldJson f)) fields' out') (heq : out.map (·.2) = out'.map (·.2)) :
    ∀ f ∈ fields, ∃ f' ∈ fields', SameField f f' := by
  intro f hf
  obtain ⟨v, hv, hget⟩ := h.value f hf
  cases hv
  have hmem : fieldJson f ∈ out'.map (·.2) := heq ▸ List.mem_map.2 ⟨_, Fields.mem_of_get hget, rfl⟩
  obtain ⟨e', he', hvalue⟩ := List.mem_map.1 hmem
  obtain ⟨f', hf', hname⟩ := h'.only e' he'
  obtain ⟨v', hv', hget'⟩ := h'.value f' hf'
  cases hv'
  rw [hname, h'.ordered.get_of_mem he', Option.some.injEq] at hget'
  exact ⟨f', hf', fieldJson_eq_iff.1 (hget'.symm.trans hvalue)⟩

theorem reachableEnums_eq {d d' : ModelReadDescriptor} (D : Described d d') :
    reachableEnums d.fields = reachableEnums d'.fields := by
  refine insertionSort_eq_iff.2 ((List.perm_ext_iff_of_nodup (List.nodup_dedup _) (List.nodup_dedup _)).2 fun n => ?_)
  simp only [List.mem_dedup, List.mem_flatMap]
  constructor
  · rintro ⟨f, hf, hn⟩
    obtain ⟨f', hf', -, -, htype⟩ := D.toward f hf
    exact ⟨f', hf', htype ▸ hn⟩
  · rintro ⟨f', hf', hn⟩
    obtain ⟨f, hf, -, -, htype⟩ := D.back f' hf'
    exact ⟨f, hf, htype ▸ hn⟩

/-- Two closed descriptors have one description exactly when they differ in order only. -/
theorem describe_eq_iff {d d' : ModelReadDescriptor} (C : Closed d) (C' : Closed d') {b b' : Bool} {n n' : String} {v v' : Nat} :
    describe b n v d = describe b' n' v' d' ↔ b = b' ∧ n = n' ∧ v = v' ∧ Described d d' := by
  obtain ⟨fields, enums, hfields, henums, hd⟩ := describe_ok C b n v
  obtain ⟨fields', enums', hfields', henums', hd'⟩ := describe_ok C' b' n' v'
  rw [hd, hd']
  constructor
  · intro h
    simp only [Except.ok.injEq, Json.obj.injEq, List.cons.injEq, Prod.mk.injEq, Json.bool.injEq, Json.arr.injEq, Json.str.injEq,
      Json.num.injEq, Num.posInt.injEq, true_and, and_true] at h
    obtain ⟨hb, henum, hfield, hid, hname, hversion⟩ := h
    have hid : d.identity.insertionSort (· ≤ ·) = d'.identity.insertionSort (· ≤ ·) :=
      List.map_injective_iff.2 (fun _ _ heq => Json.str.inj heq) hid
    refine ⟨hb, hname, hversion, insertionSort_eq_iff.1 hid, fields_toward hfields hfields' hfield, fun f' hf' => ?_,
      fun f hf e he e' he' hreach hsame => ?_⟩
    · obtain ⟨f, hf, hsame⟩ := fields_toward hfields' hfields hfield.symm f' hf'
      exact ⟨f, hf, hsame.1.symm, hsame.2.1.symm, hsame.2.2.symm⟩
    · -- the two contracts of the enum stand in one list, under its name
      obtain ⟨j, hj, hcontract⟩ := forall₂_mem_left henums (mem_reachableEnums.2 ⟨f, hf, hreach⟩)
      rw [enumContract_of_mem C.enums he, Except.ok.injEq] at hcontract
      obtain ⟨n', hn', hcontract'⟩ := forall₂_mem_right henums' (henum ▸ hj)
      obtain ⟨g, hg, hng⟩ := mem_reachableEnums.1 hn'
      obtain ⟨e'', he'', rfl⟩ := C'.declared g hg n' hng
      rw [enumContract_of_mem C'.enums he'', ← hcontract] at hcontract'
      simp only [Except.ok.injEq, Json.obj.injEq, List.cons.injEq, Prod.mk.injEq, Json.str.injEq, Json.arr.injEq, true_and,
        and_true] at hcontract'
      obtain ⟨hname', hvalues⟩ := hcontract'
      have heq : e'' = e' := List.inj_on_of_nodup_map C'.enums he'' he' (hname'.trans hsame.symm)
      subst heq
      have hsorted : e''.values.insertionSort (· ≤ ·) = e.values.insertionSort (· ≤ ·) :=
        List.map_injective_iff.2 (fun _ _ heq => Json.str.inj heq) hvalues
      exact (insertionSort_eq_iff.1 hsorted).symm
  · rintro ⟨rfl, rfl, rfl, D⟩
    have hfield : fields = fields' := by
      refine Collects.unique (hfields.congr (fun f hf => ?_) fun f' hf' => ?_) hfields'
      · obtain ⟨f', hf', hsame⟩ := D.toward f hf
        exact ⟨f', hf', hsame.1⟩
      · obtain ⟨f, hf, hsame⟩ := D.back f' hf'
        exact ⟨f, hf, hsame.1.symm, congrArg Except.ok (fieldJson_eq_iff.2 hsame).symm⟩
    have hreach := reachableEnums_eq D
    have henum : enums = enums' := by
      have hpoint : ∀ m ∈ reachableEnums d.fields, enumContract d.enums m = enumContract d'.enums m := by
        intro m hm
        obtain ⟨f, hf, hmf⟩ := mem_reachableEnums.1 hm
        obtain ⟨e, he, rfl⟩ := C.declared f hf m hmf
        obtain ⟨f', hf', -, -, htype⟩ := D.toward f hf
        obtain ⟨e', he', hname⟩ := C'.declared f' hf' e.name (htype ▸ hmf)
        have hvalues := insertionSort_eq_iff.2 (D.enums f hf e he e' he' hmf hname)
        rw [← hname, enumContract_of_mem C'.enums he', hname, enumContract_of_mem C.enums he, hvalues]
      refine forall₂_unique (fun m hm j j' hj hj' => ?_) henums (hreach ▸ henums')
      rw [← hpoint m hm, hj, Except.ok.injEq] at hj'
      exact hj'
    rw [hfield, henum, insertionSort_eq_iff.2 D.identity]

end Axton
