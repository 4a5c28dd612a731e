import Axton.Compiler.History
import Axton.Core.Arguments
import Axton.Protocol.Sync
import Mathlib.Data.List.MinMax

/-!
# Republished contracts keep old calls valid

What a reconciliation that succeeds does to a retained history: names and versions stay, a declared
version is not below a retained one, and only the snapshots of the declared versions are replaced. A
replaced snapshot is wider than the one it replaces, so that it takes every call the old one took.

The exception is a slot that had no patch list: `compatible` compares lists only where the old slot
has one, and the captured models do not shrink while another slot of the operation uses the fields.
-/

namespace Axton.Compiler

/-! ## Captured models -/

theorem capture_fields_nodup {config : Configuration} {action : DeclaredAction} {snapshot : RetainedAction}
    (h : captureAction config action = .ok snapshot) :
    ∀ m ∈ snapshot.input.models, (m.fields.map (·.name)).Nodup := by
  unfold captureAction at h
  simp only [bind_ok, pure_ok] at h
  obtain ⟨_, -, kind, -, rfl⟩ := h
  intro m hm
  obtain ⟨model, hmodel, hcap⟩ := List.mem_filterMap.1 hm
  simp only [captureModel] at hcap
  split at hcap
  · cases hcap
  · cases hcap
    refine List.Nodup.sublist (List.filter_sublist.map _) ?_
    rw [List.map_map]
    exact config.fields_nodup model hmodel

theorem capture_inputs {config : Configuration} {action : DeclaredAction} {snapshot : RetainedAction}
    (h : captureAction config action = .ok snapshot) : snapshot.inputs = action.inputs := by
  unfold captureAction at h
  simp only [bind_ok, pure_ok] at h
  obtain ⟨_, -, kind, -, rfl⟩ := h
  rfl

/-! ## Compatible snapshots -/

/-- The model a retained contract reads under a name. -/
theorem model_ok {S : Schema} {a : RetainedAction} {name : String} {m : ModelDescriptor}
    (h : (S.inputSchema a.descriptor).model name = .ok m) : m ∈ a.input.models ∧ m.name = name := by
  simp only [Schema.model, Schema.inputSchema, RetainedAction.descriptor] at h
  cases hf : a.input.models.find? (·.name = name) with
  | none => simp [hf] at h
  | some n =>
    simp only [hf, Except.ok.injEq] at h
    subst h
    have hname := List.find?_some hf
    exact ⟨List.mem_of_find?_eq_some hf, of_decide_eq_true hname⟩

/-- Selections that agree on what they take keep positions together. -/
theorem mem_zip_filter {α : Type} {p : α → Bool} {xs ys : List α} {a b : α}
    (hp : ∀ x y, (x, y) ∈ xs.zip ys → p x = p y) (h : (a, b) ∈ xs.zip ys) (ha : p a = true) :
    (a, b) ∈ (xs.filter p).zip (ys.filter p) := by
  induction xs generalizing ys with
  | nil => simp at h
  | cons x xs ih =>
    cases ys with
    | nil => simp at h
    | cons y ys =>
      have hxy : p x = p y := hp x y (by simp)
      have hrest : ∀ x' y', (x', y') ∈ xs.zip ys → p x' = p y' := fun x' y' h' => hp x' y' (by simp [h'])
      rw [List.zip_cons_cons, List.mem_cons] at h
      by_cases hx : p x = true
      · rw [List.filter_cons_of_pos hx, List.filter_cons_of_pos (hxy ▸ hx), List.zip_cons_cons, List.mem_cons]
        rcases h with h | h
        · exact .inl h
        · exact .inr (ih hrest h)
      · rw [List.filter_cons_of_neg hx, List.filter_cons_of_neg (hxy ▸ hx)]
        rcases h with h | h
        · cases h
          exact absurd ha hx
        · exact ih hrest h

section
variable {old new : RetainedAction} (hc : actionInputsCompatible old new = true)
include hc

theorem compatible_slots : compatible (slots old.inputs) (slots new.inputs) old new = true := by
  unfold actionInputsCompatible at hc
  simp only [Bool.and_eq_true] at hc
  exact hc.2

/-- The retained enums and models are kept, so that the new snapshot is wider. -/
theorem compatible_widens (hfields : ∀ m ∈ new.input.models, (m.fields.map (·.name)).Nodup) (S S' : Schema) :
    (S.inputSchema old.descriptor).Widens (S'.inputSchema new.descriptor) := by
  have h := compatible_slots hc
  unfold compatible at h
  simp only [Bool.and_eq_true, List.all_eq_true, decide_eq_true_eq] at h
  obtain ⟨⟨⟨⟨-, henums⟩, hmodels⟩, -⟩, -⟩ := h
  constructor
  · intro e he
    have hen := henums e he
    unfold enumCompatible at hen
    cases hnext : new.input.enums.find? (·.name = e.name) with
    | none => simp [hnext] at hen
    | some next =>
      simp only [hnext, List.all_eq_true, List.contains_iff_mem] at hen
      have hname := List.find?_some hnext
      exact ⟨next, List.mem_of_find?_eq_some hnext, of_decide_eq_true hname, hen⟩
  · intro name m hm
    obtain ⟨hmem, rfl⟩ := model_ok hm
    have hmodel := hmodels m hmem
    unfold modelCompatible at hmodel
    cases hnext : new.input.models.find? (·.name = m.name) with
    | none => simp [hnext] at hmodel
    | some next =>
      simp only [hnext, Bool.and_eq_true, decide_eq_true_eq, List.all_eq_true, beq_iff_eq] at hmodel
      obtain ⟨⟨hid, hshapes⟩, -⟩ := hmodel
      have hnew : (S'.inputSchema new.descriptor).model m.name = .ok next := by
        simp only [Schema.model, Schema.inputSchema, RetainedAction.descriptor]
        rw [hnext]
      refine ⟨next, hnew, hid.symm, fun f hf => ?_, hfields next (List.mem_of_find?_eq_some hnext)⟩
      have hshape := hshapes f hf
      unfold sameShape at hshape
      cases hg : next.fields.find? (·.name = f.name) with
      | none => simp [hg] at hshape
      | some g =>
        simp only [hg, Option.map_some, Option.some.injEq, decide_eq_true_eq] at hshape
        exact ⟨g, hg, hshape⟩

/-- The declared inputs are kept, but for patch lists that lost no field. -/
theorem compatible_inputs (S S' : Schema) :
    List.Forall₂ (InputWidens (S.inputSchema old.descriptor) (S'.inputSchema new.descriptor))
      old.descriptor.inputs new.descriptor.inputs := by
  have h := compatible_slots hc
  unfold actionInputsCompatible at hc
  simp only [Bool.and_eq_true, beq_iff_eq, List.all_eq_true] at hc
  obtain ⟨⟨hlen, hkinds⟩, -⟩ := hc
  unfold compatible at h
  simp only [Bool.and_eq_true, List.all_eq_true, decide_eq_true_eq] at h
  obtain ⟨⟨⟨⟨⟨-, hslots⟩, -⟩, hmodels⟩, -⟩, -⟩ := h
  show List.Forall₂ _ (old.inputs.map (·.input)) (new.inputs.map (·.input))
  rw [List.forall₂_map_left_iff, List.forall₂_map_right_iff]
  refine List.forall₂_iff_zip.2 ⟨hlen, fun {x y} hxy => ?_⟩
  obtain ⟨hkind, hvalue⟩ := hkinds (x, y) hxy
  cases hx : isModelInput x with
  | false =>
    have heq : x = y := by simpa [hx] using hvalue
    subst heq
    unfold isModelInput at hx
    cases hin : x.input with
    | value name ty nullable list => exact .value name ty nullable list
    | model => simp [hin] at hx
  | true =>
    have hslot := hslots (x, y) (mem_zip_filter (fun a b hab => (hkinds (a, b) hab).1) hxy hx)
    unfold slotCompatible at hslot
    simp only [Bool.and_eq_true, decide_eq_true_eq] at hslot
    obtain ⟨hsame, hpatch⟩ := hslot
    have hy : isModelInput y = true := hkind ▸ hx
    obtain ⟨xi, xm⟩ := x
    obtain ⟨yi, ym⟩ := y
    cases xi with
    | value => simp [isModelInput] at hx
    | model name model operation cardinality allowed bindings =>
      cases yi with
      | value => simp [isModelInput] at hy
      | model name' model' operation' cardinality' allowed' bindings' =>
        simp only [RetainedInput.withoutPatch, RetainedInput.mk.injEq, ActionInput.model.injEq, true_and] at hsame
        obtain ⟨⟨rfl, rfl, rfl, rfl, rfl⟩, rfl⟩ := hsame
        refine .model ?_ ?_
        · rintro names rfl f hf
          simp only [RetainedInput.allowed, List.all_eq_true] at hpatch
          have hany := hpatch f hf
          cases allowed' with
          | none => simp at hany
          | some names' => exact ⟨names', rfl, by simpa using hany⟩
        · rintro rfl m m' hm hm' f hf hnone
          obtain ⟨hmem, rfl⟩ := model_ok hm
          have hmodel := hmodels m hmem
          have hcreates : (slots new.inputs).any (createsModel m.name) = true := by
            refine List.any_eq_true.2 ⟨_, List.mem_filter.2 ⟨(List.of_mem_zip hxy).2, hy⟩, ?_⟩
            simp [createsModel]
          unfold modelCompatible at hmodel
          have hnext : new.input.models.find? (·.name = m.name) = some m' := by
            simp only [Schema.model, Schema.inputSchema, RetainedAction.descriptor] at hm'
            split at hm' <;> simp_all
          simp only [hnext, hcreates, Bool.and_eq_true, Bool.not_true, Bool.false_or, List.all_eq_true] at hmodel
          have hnull := hmodel.2 f hf
          have hfind : m.fields.find? (·.name = f.name) = none := hnone
          simpa [hfind] using hnull

end

/-! ## One operation -/

theorem retainedAt_set (t : Table String Versions) (name version n v : String) (snapshot : RetainedAction) :
    retainedAt (t.set name (((t.get name).getD []).set version snapshot)) n v =
      if name = n ∧ version = v then some snapshot else retainedAt t n v :=
  Table.get₂_set t name n version v snapshot

/-- The latest version bounds every retained one. -/
theorem latestVersion_le {versions : Versions} {latest : Nat} (h : latestVersion versions = .ok latest) {text : String} {n : Nat}
    (hmem : (versions.get text).isSome) (hn : parseVersion text = some n) : n ≤ latest := by
  unfold latestVersion at h
  simp only [bind_ok, pure_ok, mapM_ok] at h
  obtain ⟨numbers, hnumbers, rfl⟩ := h
  obtain ⟨snapshot, hsnapshot⟩ := Option.isSome_iff_exists.1 hmem
  obtain ⟨k, hk, hparse⟩ := forall₂_mem_left hnumbers (Table.mem_of_get hsnapshot)
  simp only [hn, Except.ok.injEq] at hparse
  subst hparse
  exact List.le_max_of_le' 0 hk le_rfl

theorem sameVersion_ok {label : String} {old snapshot : RetainedAction} {u : Unit} (h : sameVersion label old snapshot = .ok u) :
    actionInputsCompatible old snapshot = true := by
  unfold sameVersion at h
  simp only [bind_ok] at h
  obtain ⟨_, -, _, -, h⟩ := h
  split at h
  · cases h
  · unfold sameVersionContract at h
    split at h
    · cases h
    · split at h
      · assumption
      · cases h

/-- What one operation of the configuration does to the retained versions. -/
theorem retainOperation_ok {config : Configuration} {t t' : Table String Versions} {operation : DeclaredAction}
    (h : retainOperation config t operation = .ok t') :
    ∃ snapshot, captureAction config operation = .ok snapshot ∧
      (∀ version n, (retainedAt t operation.name version).isSome → parseVersion version = some n → n ≤ operation.version) ∧
      (∀ old, retainedAt t operation.name (toString operation.version) = some old →
        actionInputsCompatible old snapshot = true) ∧
      t' = t.set operation.name (((t.get operation.name).getD []).set (toString operation.version) snapshot) := by
  unfold retainOperation at h
  simp only [bind_ok] at h
  obtain ⟨snapshot, hsnapshot, h⟩ := h
  split at h
  · cases h
  · simp only [bind_ok] at h
    obtain ⟨latest, hlatest, h⟩ := h
    split at h
    · cases h
    · rename_i hle
      have hat (version : String) :
          retainedAt t operation.name version = ((t.get operation.name).getD []).get version := by
        unfold retainedAt
        cases t.get operation.name <;> rfl
      refine ⟨snapshot, hsnapshot, fun version n hsome hn => ?_, fun old hold => ?_, ?_⟩
      · rw [hat] at hsome
        exact (latestVersion_le hlatest hsome hn).trans (not_lt.1 hle)
      · rw [hat] at hold
        simp only [hold, bind_ok] at h
        obtain ⟨_, hsame, -⟩ := h
        exact sameVersion_ok hsame
      · cases hget : ((t.get operation.name).getD []).get (toString operation.version) with
        | none =>
          simp only [hget, bind_ok, pure_ok] at h
          obtain ⟨_, -, rfl⟩ := h
          rfl
        | some old =>
          simp only [hget, bind_ok, pure_ok] at h
          obtain ⟨_, -, rfl⟩ := h
          rfl

/-! ## The whole configuration -/

/-- What the loop over distinct operations does: a declared version holds its captured snapshot,
compatible with the one it replaced, and every other snapshot is as it was. -/
theorem retain_run {config : Configuration} {operations : List DeclaredAction} {t t' : Table String Versions}
    (hn : (operations.map (·.name)).Nodup) (h : operations.foldlM (retainOperation config) t = .ok t') :
    (∀ a ∈ operations, ∃ snapshot, captureAction config a = .ok snapshot ∧
      retainedAt t' a.name (toString a.version) = some snapshot ∧
      (∀ old, retainedAt t a.name (toString a.version) = some old → actionInputsCompatible old snapshot = true) ∧
      ∀ version n, (retainedAt t a.name version).isSome → parseVersion version = some n → n ≤ a.version) ∧
    (∀ name version, (∀ a ∈ operations, ¬ (a.name = name ∧ toString a.version = version)) →
      retainedAt t' name version = retainedAt t name version) ∧
    ∀ name, (t.get name).isSome → (t'.get name).isSome := by
  induction operations generalizing t with
  | nil =>
    simp only [List.foldlM_nil, pure_ok] at h
    subst h
    simp
  | cons a operations ih =>
    simp only [List.foldlM_cons, bind_ok] at h
    obtain ⟨t₁, hstep, hrest⟩ := h
    obtain ⟨snapshot, hsnapshot, hversions, hcompatible, ht₁⟩ := retainOperation_ok hstep
    rw [List.map_cons, List.nodup_cons] at hn
    obtain ⟨hall, hothers, hnames⟩ := ih hn.2 hrest
    have hat (name version : String) : retainedAt t₁ name version =
        if a.name = name ∧ toString a.version = version then some snapshot else retainedAt t name version := by
      rw [ht₁, retainedAt_set]
    -- later operations have other names
    have hne : ∀ b ∈ operations, a.name ≠ b.name := fun b hb he => hn.1 (List.mem_map.2 ⟨b, hb, he.symm⟩)
    refine ⟨fun b hb => ?_, fun name version hno => ?_, fun name hsome => hnames name ?_⟩
    · rcases List.mem_cons.1 hb with rfl | hb
      · refine ⟨snapshot, hsnapshot, ?_, hcompatible, hversions⟩
        rw [hothers b.name (toString b.version) fun c hc hname => hne c hc hname.1.symm, hat]
        simp
      · obtain ⟨snap, hsnap, hget, hcomp, hvers⟩ := hall b hb
        have hback (version : String) : retainedAt t₁ b.name version = retainedAt t b.name version := by
          rw [hat, if_neg fun hc => hne b hb hc.1]
        exact ⟨snap, hsnap, hget, fun old hold => hcomp old (by rw [hback, hold]),
          fun version n hsome hp => hvers version n (by rw [hback]; exact hsome) hp⟩
    · rw [hothers name version fun b hb => hno b (List.mem_cons_of_mem _ hb), hat,
        if_neg (hno a List.mem_cons_self)]
    · rw [ht₁, Table.get_set]
      split
      · rfl
      · exact hsome

theorem reconcile_ok {config : Configuration} {history : Option ActionHistory} {result : ActionHistory}
    (h : reconcileActionHistory config history = .ok result) :
    config.actions.foldlM (retainOperation config) (history.getD {}).actions = .ok result.actions := by
  unfold reconcileActionHistory at h
  simp only at h
  split at h
  · cases h
  · simp only [bind_ok, pure_ok] at h
    obtain ⟨actions, hactions, _, -, rfl⟩ := h
    unfold retainVersions at hactions
    split at hactions
    · cases hactions
    · exact hactions

/-- A retained contract reads its own snapshot, whatever the schema around it. -/
theorem normalizeActionArgs_schema (P : Platform) (S S' : Schema) (a : RetainedAction) (args : Json) :
    normalizeActionArgs P S a.descriptor args = normalizeActionArgs P S' a.descriptor args := rfl

/-- A call the old contract normalized to `v` is taken by the new one and normalizes to the same
value, up to null in the nullable fields its created records gained. -/
def StaysValid (P : Platform) (S S' : Schema) (old new : RetainedAction) (args v : Json) : Prop :=
  ∃ v', normalizeActionArgs P S' new.descriptor args = .ok v' ∧
    ArgsWidened (S.inputSchema old.descriptor) (S'.inputSchema new.descriptor) old.descriptor.inputs v v'

/-- No update of the call carries a field outside a patch list that its slot had not before. -/
def WithinNewLists (S : Schema) (old new : RetainedAction) (args : Json) : Prop :=
  PatchesKept (S.inputSchema old.descriptor) old.descriptor.inputs new.descriptor.inputs args

theorem staysValid_same (P : Platform) (S S' : Schema) {a : RetainedAction} {args v : Json}
    (h : normalizeActionArgs P S a.descriptor args = .ok v) : StaysValid P S S' a a args v := by
  refine ⟨v, by rw [normalizeActionArgs_schema P S' S, h], ?_⟩
  obtain ⟨_, es, -, -, -, rfl⟩ := normalizeInputs_ok.1 (normalizeActionArgs_ok.1 h).1
  exact ⟨_, _, rfl, rfl, fun x => .inl rfl⟩

theorem withinNewLists_same (S : Schema) (a : RetainedAction) (args : Json) : WithinNewLists S a a args := by
  intro i i' hz
  have hii : i = i' := List.forall₂_iff_zip.1 (List.forall₂_same.2 fun _ _ => rfl) |>.2 hz
  subst hii
  rintro name model cardinality bindings names rfl hi
  cases hi

/-- A reconciliation that succeeds keeps every retained name, lowers no version and leaves every
snapshot of another version as it was. A call that a retained snapshot took stays valid under the
snapshot that replaced it exactly when its updates stay inside the patch lists the slots gained. -/
theorem reconcile_keeps_calls {config : Configuration} {history : Option ActionHistory} {result : ActionHistory}
    (h : reconcileActionHistory config history = .ok result) :
    (∀ name, ((history.getD {}).actions.get name).isSome → (result.actions.get name).isSome) ∧
    (∀ a ∈ config.actions, ∀ version n, ((history.getD {}).snapshot a.name version).isSome →
      parseVersion version = some n → n ≤ a.version) ∧
    (∀ name version, (∀ a ∈ config.actions, ¬ (a.name = name ∧ toString a.version = version)) →
      result.snapshot name version = (history.getD {}).snapshot name version) ∧
    ∀ name version old new, (history.getD {}).snapshot name version = some old →
      result.snapshot name version = some new → ∀ P S S' args v, normalizeActionArgs P S old.descriptor args = .ok v →
        (StaysValid P S S' old new args v ↔ WithinNewLists S old new args) := by
  obtain ⟨hall, hothers, hnames⟩ := retain_run config.actions_nodup (reconcile_ok h)
  refine ⟨hnames, fun a ha => ?_, hothers, ?_⟩
  · obtain ⟨-, -, -, -, hversions⟩ := hall a ha
    exact hversions
  · intro name version old new hold hnew P S S' args v hv
    by_cases hdeclared : ∃ a ∈ config.actions, a.name = name ∧ toString a.version = version
    · obtain ⟨a, ha, rfl, rfl⟩ := hdeclared
      obtain ⟨snapshot, hcapture, hget, hcompatible, -⟩ := hall a ha
      cases hget.symm.trans hnew
      have hc := hcompatible old hold
      refine normalizeActionArgs_widens (compatible_widens hc (capture_fields_nodup hcapture) S S')
        (compatible_inputs hc S S') ?_ hv
      rw [show new.descriptor.inputs = a.inputs.map (·.input) from congrArg _ (capture_inputs hcapture), List.map_map]
      exact config.inputs_nodup a ha
    · have hsame := hothers name version fun a ha hc => hdeclared ⟨a, ha, hc⟩
      cases (hsame.symm.trans hnew).symm.trans hold
      exact iff_of_true (staysValid_same P S S' hv) (withinNewLists_same S _ args)

/-! ## An operation that edits notes -/

namespace Edit

def text (name : String) : FieldDescriptor := { name, valueType := .scalar .string, nullable := false }

def note : ModelDescriptor := { name := "note", identity := ["id"], fields := [text "id", text "title", text "body"] }

/-- An optional new note beside the edited one: the create keeps every field captured. -/
def inputs (allowed : Option (List String)) : List RetainedInput :=
  [⟨.model "draft" "note" .create .optional none [], []⟩, ⟨.model "note" "note" .update .single allowed [], []⟩]

/-- Titles only. -/
def config : Configuration where
  models := [note]
  actions := [{ name := "edit", version := 1, inputs := inputs (some ["title"]) }]
  actions_nodup := by decide
  inputs_nodup := by decide
  fields_nodup := by decide

def published (allowed : Option (List String)) : RetainedAction :=
  { name := "edit", version := 1, kind := some (.str "mutation"), inputs := inputs allowed,
    input := { models := [note], enums := [] } }

/-- Published with a slot that has no patch list. -/
def history : ActionHistory where
  actions := [("edit", [("1", published none)])]

def reconciled : ActionHistory where
  actions := [("edit", [("1", published (some ["title"]))])]

def call (field : String) : Json := .obj [("note", .obj [("id", .str "a"), (field, .str "b")])]

theorem reconciles : reconcileActionHistory config (some history) = .ok reconciled :=
  ok_of_toOption (by decide +kernel)

end Edit

/-- A saved edit of the title is taken after the republished list. -/
theorem reconcile_keeps_calls_title :
    reconcileActionHistory Edit.config (some Edit.history) = .ok Edit.reconciled ∧
      ∃ v, normalizeActionArgs Notes.platform Notes.schema (Edit.published none).descriptor (Edit.call "title") = .ok v ∧
        StaysValid Notes.platform Notes.schema Notes.schema (Edit.published none) (Edit.published (some ["title"]))
          (Edit.call "title") v := by
  refine ⟨Edit.reconciles, .obj [("draft", .null), ("note", .obj [("id", .str "a"), ("title", .str "b")])], ?_, ?_⟩
  · exact ok_of_toOption (by decide +kernel)
  · refine ((reconcile_keeps_calls Edit.reconciles).2.2.2 "edit" "1" _ _ rfl rfl _ _ _ _ _
      (ok_of_toOption (by decide +kernel))).2 ?_
    intro i i' hz name model cardinality bindings names hi hi' m hm xs hxs x hx e he
    have hzip : (i, i') ∈ ((Edit.inputs none).map (·.input)).zip ((Edit.inputs (some ["title"])).map (·.input)) := hz
    simp only [Edit.inputs, List.map_cons, List.map_nil, List.zip_cons_cons, List.zip_nil_right, List.mem_cons,
      Prod.mk.injEq, List.not_mem_nil, or_false] at hzip
    rcases hzip with ⟨rfl, -⟩ | ⟨rfl, rfl⟩
    · cases hi
    · cases hi
      cases hi'
      cases hm
      cases hxs
      have hfields : e ∈ [("id", Json.str "a"), ("title", Json.str "b")] := by
        rw [List.mem_singleton] at hx
        rw [hx] at he
        exact he
      simp only [List.mem_cons, List.not_mem_nil, or_false] at hfields
      rcases hfields with rfl | rfl
      · exact .inl (by simp [Edit.note])
      · exact .inr (by simp)

/-- A saved edit of the body is refused after a reconciliation that reported no incompatibility. -/
theorem reconcile_refuses_edit :
    reconcileActionHistory Edit.config (some Edit.history) = .ok Edit.reconciled ∧
      Edit.history.snapshot "edit" "1" = some (Edit.published none) ∧
      Edit.reconciled.snapshot "edit" "1" = some (Edit.published (some ["title"])) ∧
      (normalizeActionArgs Notes.platform Notes.schema (Edit.published none).descriptor (Edit.call "body")).isOk = true ∧
      normalizeActionArgs Notes.platform Notes.schema (Edit.published (some ["title"])).descriptor (Edit.call "body") =
        .error "disallowed Action patch field" :=
  ⟨Edit.reconciles, rfl, rfl, by decide +kernel, by decide +kernel⟩

end Axton.Compiler
