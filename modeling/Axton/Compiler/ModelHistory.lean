import Axton.Compiler.History
import Axton.Core.ReadContract

/-!
# Retained read contracts

Model of `reconcile_model_history` (`crates/compiler/src/history.rs`): for every published model, one
snapshot of what a loader returns per version. A version that is published again is compared with the
snapshot it replaces, one field and one enum at a time (`model_break`). What the comparison leaves is a
relation between the two snapshots (`Serves`); it composes, so it also holds between a snapshot and any
that replaces it later.
-/

namespace Axton.Compiler

/-- Snapshots of models by name and by the text of their version. -/
abbrev Contracts := Table String (Table String ModelReadDescriptor)

structure ModelHistory where
  formatVersion : Nat := 1
  models : Contracts := []
deriving DecidableEq

def ModelHistory.snapshot (h : ModelHistory) (name : String) (version : Nat) : Option ModelReadDescriptor :=
  h.models.get₂ name (toString version)

/-! ## Capture and comparison -/

/-- `capture_model` (history.rs:586): the enums are those that fields name directly. -/
def captureRead (config : Schema) (model : ModelDescriptor) : ModelReadDescriptor :=
  let used := model.fields.filterMap fun f => enumName f.valueType
  { name := model.name
    version := model.version
    identity := model.identity
    fields := model.fields.map (·.withoutCreationPolicy)
    enums := config.enums.filter fun e => used.contains e.name }

/-- A field that `new` lost or gave another shape. -/
def brokenField (new : ModelReadDescriptor) (f : FieldDescriptor) : Option String :=
  match new.model.field f.name with
  | none => some ("removing or renaming field " ++ quote f.name)
  | some next =>
    if next.withoutCreationPolicy = f.withoutCreationPolicy then none
    else some ("changing the type of field " ++ quote f.name)

/-- A field that `old` did not have and every record must. -/
def requiredField (old : ModelReadDescriptor) (f : FieldDescriptor) : Option String :=
  if (old.model.field f.name).isNone ∧ f.nullable = false then some ("adding required field " ++ quote f.name) else none

/-- An enum that is not what it was. -/
def changedEnum (new : ModelReadDescriptor) (e : EnumDescriptor) : Option String :=
  if new.enums.find? (·.name = e.name) = some e then none else some ("changing the values of enum " ++ quote e.name)

/-- `model_break` (history.rs:608). -/
def modelBreak (old new : ModelReadDescriptor) : Option String :=
  (old.fields.findSome? (brokenField new)).or
    ((new.fields.findSome? (requiredField old)).or (old.enums.findSome? (changedEnum new)))

/-! ## Reconciliation -/

def retainedNumber (text : String) : Except String Nat :=
  match parseVersion text with
  | some n => .ok n
  | none => .error "invalid retained version"

/-- A declared version is not below the latest retained one (history.rs:562). -/
def checkLatest (model : ModelDescriptor) (numbers : List Nat) : Except String Unit :=
  match numbers.max? with
  | some latest =>
    if model.version < latest then .error (model.name ++ ": version cannot decrease from " ++ toString latest) else .ok ()
  | none => .ok ()

/-- One model of the loop of `reconcile_model_history` (history.rs:547-581). -/
def retainModel (config : Schema) (retained : Contracts) (model : ModelDescriptor) : Except String Contracts := do
  let snapshot := captureRead config model
  let versions := (retained.get model.name).getD []
  let numbers ← versions.mapM fun r => retainedNumber r.1
  checkLatest model numbers
  if versions.any fun r => decide (r.2.identity ≠ snapshot.identity) then
    .error (model.name ++ ": identity change is not supported; a model version describes the record structure, not its identity")
  else
    match (versions.get (toString model.version)).bind fun previous => modelBreak previous snapshot with
    | some reason =>
      .error (model.name ++ " v" ++ toString model.version ++ ": " ++ reason ++
        " changes the read contract; increase @@version and keep the old loader")
    | none => return retained.set model.name (versions.set (toString model.version) snapshot)

/-- `reconcile_model_history` (history.rs:532). -/
def reconcileModelHistory (config : Schema) (history : Option ModelHistory) : Except String ModelHistory := do
  let result := history.getD {}
  if result.formatVersion ≠ 1 then .error "unsupported model history format"
  else
    match result.models.find? fun r => !(config.models.any (·.name = r.1)) with
    | some r => .error ("retained model " ++ r.1 ++ " cannot be removed")
    | none =>
      let models ← config.models.foldlM (retainModel config) result.models
      return { result with models }

/-! ## Snapshots that serve an older reader -/

/-- `b` may replace `a`: a reader of `a` finds its fields and enums in `b`, and what `b` adds may be null. -/
structure Serves (a b : ModelReadDescriptor) : Prop where
  name : b.name = a.name
  identity : b.identity = a.identity
  keeps : ∀ f ∈ a.fields, ∃ f', b.model.field f.name = some f' ∧ f'.withoutCreationPolicy = f.withoutCreationPolicy
  added : ∀ f ∈ b.fields, a.model.field f.name = none → f.nullable = true
  enums : ∀ e ∈ a.enums, b.enums.find? (·.name = e.name) = some e

theorem serves_of_modelBreak {a b : ModelReadDescriptor} (hname : b.name = a.name) (hid : b.identity = a.identity)
    (h : modelBreak a b = none) : Serves a b := by
  unfold modelBreak at h
  rw [Option.or_eq_none_iff, Option.or_eq_none_iff, List.findSome?_eq_none_iff, List.findSome?_eq_none_iff,
    List.findSome?_eq_none_iff] at h
  obtain ⟨hbroken, hrequired, hchanged⟩ := h
  refine ⟨hname, hid, fun f hf => ?_, fun f hf hnone => ?_, fun e he => ?_⟩
  · have hkept := hbroken f hf
    unfold brokenField at hkept
    cases hb : b.model.field f.name with
    | none => simp [hb] at hkept
    | some f' =>
      simp only [hb, ite_eq_left_iff, reduceCtorEq, imp_false, not_not] at hkept
      exact ⟨f', rfl, hkept⟩
  · have hnull := hrequired f hf
    unfold requiredField at hnull
    cases hn : f.nullable with
    | true => rfl
    | false => simp [hnone, hn] at hnull
  · have hsame := hchanged e he
    unfold changedEnum at hsame
    by_cases hb : b.enums.find? (·.name = e.name) = some e
    · exact hb
    · simp [hb] at hsame

theorem serves_refl {a : ModelReadDescriptor} (C : Closed a) : Serves a a := by
  refine ⟨rfl, rfl, fun f hf => ⟨f, field_of_closed C hf, rfl⟩, fun f hf hnone => ?_, fun e he => ?_⟩
  · rw [field_of_closed C hf] at hnone
    cases hnone
  · cases hb : a.enums.find? (·.name = e.name) with
    | none =>
      have hno := List.find?_eq_none.1 hb e he
      simp at hno
    | some e' =>
      have hname : e'.name = e.name := by simpa using List.find?_some hb
      rw [List.inj_on_of_nodup_map C.enums (List.mem_of_find?_eq_some hb) he hname]

theorem Serves.trans {a b c : ModelReadDescriptor} (C : Closed c) (hab : Serves a b) (hbc : Serves b c) : Serves a c := by
  refine ⟨hbc.name.trans hab.name, hbc.identity.trans hab.identity, fun f hf => ?_, fun f hf hnone => ?_, fun e he => ?_⟩
  · obtain ⟨f', hf', hshape⟩ := hab.keeps f hf
    obtain ⟨hmem, hname⟩ := ModelDescriptor.mem_of_field hf'
    obtain ⟨f'', hf'', hshape'⟩ := hbc.keeps f' hmem
    exact ⟨f'', hname ▸ hf'', hshape'.trans hshape⟩
  · cases hb : b.model.field f.name with
    | none => exact hbc.added f hf hb
    | some f' =>
      -- a field that came with `b`: `c` kept it as it was
      obtain ⟨hmem, hname⟩ := ModelDescriptor.mem_of_field hb
      obtain ⟨f'', hf'', hshape⟩ := hbc.keeps f' hmem
      rw [hname, field_of_closed C hf, Option.some.injEq] at hf''
      subst hf''
      have hnull : f'.nullable = true := hab.added f' hmem (by rw [hname]; exact hnone)
      exact (congrArg (·.nullable) hshape).trans hnull
  · have hb := hab.enums e he
    exact hbc.enums e (List.mem_of_find?_eq_some hb)

end Axton.Compiler
