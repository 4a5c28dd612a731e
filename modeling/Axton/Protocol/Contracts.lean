import Axton.Core.SameReads
import Axton.Protocol.Keys

/-!
# Materialization ids

A materialization id is a digest of the canonical text of a contract (`sync/mutation.rs:175`). A contract
holds texts, flags and versions only, in map order (`Json.Plain`), so that its text determines it: equal
ids are equal contracts, and equal contracts are equal readings.
-/

namespace Axton

/-! ## Plain values -/

/-- A value with one form: small integers, and objects in map order. -/
inductive Json.Plain : Json → Prop
  | null : Plain .null
  | bool (b : Bool) : Plain (.bool b)
  | str (s : String) : Plain (.str s)
  | num {n : Nat} (h : n ≤ maxSafeInteger) : Plain (.num (.posInt n))
  | arr {xs : List Json} (h : ∀ x ∈ xs, Plain x) : Plain (.arr xs)
  | obj {fs : Fields} (ordered : (fs.map (·.1)).Pairwise (· < ·)) (h : ∀ e ∈ fs, Plain e.2) : Plain (.obj fs)

namespace Json

theorem Plain.safe {v : Json} (h : v.Plain) : v.Safe := by
  induction h with
  | null => trivial
  | bool b => trivial
  | str s => trivial
  | num h => exact h
  | arr _ ih => exact safe_arr.2 ih
  | obj ordered _ ih => exact safe_obj.2 ⟨ordered.imp fun h => ne_of_lt h, ih⟩

/-- Plain values differ only where their normal forms do. -/
theorem Plain.eq_of_same {a b : Json} (ha : a.Plain) (hb : b.Plain) (h : a.Same b) : a = b := by
  unfold Same at h
  induction ha generalizing b with
  | null => cases hb <;> simp [normal] at h ⊢
  | bool x => cases hb <;> simp_all [normal]
  | str x => cases hb <;> simp_all [normal]
  | @num n hn =>
    cases hb with
    | @num n' hn' =>
      simp only [normal, Json.num.injEq, Num.float.injEq] at h
      unfold maxSafeInteger at hn hn'
      have hcast : ((natToF64 n : Nat) : Rat) = (natToF64 n' : Nat) := h
      rw [natToF64_small (by omega), natToF64_small (by omega)] at hcast
      rw [Nat.cast_injective hcast]
    | _ => simp [normal] at h
  | @arr xs hxs ih =>
    cases hb with
    | @arr ys hys =>
      simp only [normal, normalItems_eq, Json.arr.injEq] at h
      exact congrArg Json.arr (eq_of_map_eq (fun x hx y hy hxy => ih x hx (hys y hy) hxy) h)
    | _ => simp [normal] at h
  | @obj fs hordered hfs ih =>
    cases hb with
    | @obj gs hordered' hgs =>
      rw [normal_obj (List.pairwise_map.1 hordered), normal_obj (List.pairwise_map.1 hordered'), Json.obj.injEq] at h
      refine congrArg Json.obj (eq_of_map_eq (fun e he e' he' hee => ?_) h)
      rw [Prod.mk.injEq] at hee
      exact Prod.ext hee.1 (ih e he (hgs e' he') hee.2)
    | _ => simp [normal] at h

end Json

/-! ## Contracts are plain -/

theorem plain_strs (xs : List String) : (Json.arr (xs.map .str)).Plain := by
  refine .arr fun x hx => ?_
  obtain ⟨s, -, rfl⟩ := List.mem_map.1 hx
  exact .str s

theorem typeJson_plain (ty : ValueType) : (typeJson ty).Plain := by
  induction ty with
  | scalar name =>
    refine .obj (by show List.Pairwise _ ["kind", "name"]; decide) fun e he => ?_
    simp only [List.mem_cons, List.not_mem_nil, or_false] at he
    rcases he with rfl | rfl <;> exact .str _
  | enum name =>
    refine .obj (by show List.Pairwise _ ["kind", "name"]; decide) fun e he => ?_
    simp only [List.mem_cons, List.not_mem_nil, or_false] at he
    rcases he with rfl | rfl <;> exact .str _
  | list element ih =>
    refine .obj (by show List.Pairwise _ ["element", "kind"]; decide) fun e he => ?_
    simp only [List.mem_cons, List.not_mem_nil, or_false] at he
    rcases he with rfl | rfl
    · exact ih
    · exact .str _

theorem fieldJson_plain (f : FieldDescriptor) : (fieldJson f).Plain := by
  refine .obj (by show List.Pairwise _ ["name", "nullable", "type"]; decide) fun e he => ?_
  simp only [List.mem_cons, List.not_mem_nil, or_false] at he
  rcases he with rfl | rfl | rfl
  · exact .str _
  · exact .bool _
  · exact typeJson_plain _

theorem enumContract_plain {available : List EnumDescriptor} {name : String} {c : Json} (h : enumContract available name = .ok c) :
    c.Plain := by
  unfold enumContract at h
  split at h
  · cases h
    refine .obj (by show List.Pairwise _ ["name", "values"]; decide) fun e he => ?_
    simp only [List.mem_cons, List.not_mem_nil, or_false] at he
    rcases he with rfl | rfl
    · exact .str _
    · exact plain_strs _
  · cases h

theorem describe_plain {d : ModelReadDescriptor} (C : Closed d) {bootstrap : Bool} {name : String} {version : Nat} {c : Json}
    (hversion : version ≤ maxSafeInteger) (h : describe bootstrap name version d = .ok c) : c.Plain := by
  obtain ⟨fields, enums, hfields, henums, hd⟩ := describe_ok C bootstrap name version
  rw [hd] at h
  cases h
  refine .obj ?_ fun e he => ?_
  · show List.Pairwise _ ["bootstrap", "enums", "fields", "identity", "name", "version"]
    decide
  simp only [List.mem_cons, List.not_mem_nil, or_false] at he
  rcases he with rfl | rfl | rfl | rfl | rfl | rfl
  · exact .bool _
  · refine .arr fun j hj => ?_
    obtain ⟨n, -, hn⟩ := forall₂_mem_right henums hj
    exact enumContract_plain hn
  · refine .arr fun j hj => ?_
    obtain ⟨e, he, rfl⟩ := List.mem_map.1 hj
    obtain ⟨f, hf, hname⟩ := hfields.only e he
    obtain ⟨v, hv, hget⟩ := hfields.value f hf
    cases hv
    rw [hname, hfields.ordered.get_of_mem he, Option.some.injEq] at hget
    exact hget ▸ fieldJson_plain f
  · exact plain_strs _
  · exact .str _
  · exact .num hversion

theorem contract_plain {P : Platform} {S : Schema} (hS : S.validate P = true) {models : ModelVersions} {g : String}
    {c : Json} (h : S.contract models g = .ok c) : c.Plain := by
  obtain ⟨-, -, cs, hcs, rfl⟩ := contract_ok.1 h
  refine .obj (by show List.Pairwise _ ["models", "projectionGeneration"]; decide) fun e he => ?_
  simp only [List.mem_cons, List.not_mem_nil, or_false] at he
  rcases he with rfl | rfl
  · refine .arr fun j hj => ?_
    obtain ⟨e, -, he⟩ := forall₂_mem_right (mapM_ok.1 hcs) hj
    obtain ⟨hcounter, -, m, d, hm, hd, hc⟩ := modelContract_ok.1 he
    exact describe_plain (sourceOf_closed hS (mem_of_model hm).1 hd) (of_decide_eq_true hcounter) hc
  · exact .str _

/-! ## Ids -/

theorem materializationId_ok {digest : String → String} {number : Rat → String} {S : Schema} {models : ModelVersions}
    {g : String} {c : Json} (h : S.contract models g = .ok c) : S.materializationId digest number models g =
      .ok (digest ("axton:materialization:5\x00" ++ canonicalJson number c)) := by
  unfold Schema.materializationId
  rw [h]
  rfl

/-- **Equal materializations are equal readings**, and the order of declarations does not matter. -/
theorem materialization_sound {digest : String → String} (hdigest : Function.Injective digest) {number : Rat → String}
    (R : Rfc8785 number) {P : Platform} {S S' : Schema}
    (hS : S.validate P = true) (hS' : S'.validate P = true) (models models' : ModelVersions) (g g' : String) :
    (∀ c c', S.contract models g = .ok c → S'.contract models' g' = .ok c' →
      (S.materializationId digest number models g = S'.materializationId digest number models' g' ↔ c = c') ∧
        (c = c' → g = g' ∧ SameMaterialization P S S' models models')) ∧
      ∀ T, Reordered S T → T.contract models g = S.contract models g := by
  refine ⟨fun c c' h h' => ⟨?_, ?_⟩, fun T hT => contract_reordered hS hT models g⟩
  · rw [materializationId_ok h, materializationId_ok h']
    constructor
    · intro hid
      have htext := hdigest (Except.ok.inj hid)
      have hplain := contract_plain hS h
      have hplain' := contract_plain hS' h'
      exact hplain.eq_of_same hplain' ((canonicalJson_inj R hplain.safe hplain'.safe).1 (String.append_right_inj _ |>.1 htext))
    · rintro rfl
      rfl
  · rintro rfl
    exact contract_sound hS hS' h h'

/-! ## A retained version, declared in another order -/

namespace Archive

def title : FieldDescriptor := { name := "title", valueType := .scalar .string, nullable := false }

def kind (name : String) : FieldDescriptor := { name := "kind", valueType := .enum name, nullable := true }

def id : FieldDescriptor := { name := "id", valueType := .scalar .string, nullable := false }

/-- Version 2 has no kind; version 1 had one. -/
def schema (fields : List FieldDescriptor) (kinds : List String) : Schema where
  models := [{ name := "paper", bootstrap := true, version := 2, identity := ["id"], fields := [id, title] }]
  resultModels := [{ name := "paper", version := 1, identity := ["id"], fields, enums := [⟨"Kind", kinds⟩] }]

def one : Schema := schema [id, title, kind "Kind"] ["note", "letter"]

def other : Schema := schema [kind "Kind", title, id] ["letter", "note"]

def versions : ModelVersions := ⟨[("paper", 1)], List.pairwise_singleton _ _⟩

end Archive

/-- Kept at version 1, a paper is read alike whichever schema describes it. -/
theorem materialization_sound_archive : SameReads Notes.platform Archive.one Archive.other "paper" 1 := by
  have hone : Archive.one.validate Notes.platform = true := by decide +kernel
  have hother : Archive.other.validate Notes.platform = true := by decide +kernel
  have hsame : (Archive.one.contract Archive.versions "1").toOption = (Archive.other.contract Archive.versions "1").toOption := by
    decide +kernel
  have hsome : (Archive.one.contract Archive.versions "1").toOption.isSome = true := by decide +kernel
  obtain ⟨c, hc⟩ := Option.isSome_iff_exists.1 hsome
  have hsound := (materialization_sound Function.injective_id Exact.rfc8785 hone hother Archive.versions Archive.versions "1" "1").1
    c c (ok_of_toOption hc) (ok_of_toOption (hsame ▸ hc))
  exact (hsound.2 rfl).2.reads ("paper", 1) (by simp [Archive.versions])

end Axton
