import Axton.Compiler.Served
import Axton.Protocol.Sync
import Mathlib.Logic.Relation

/-!
# Runs of the model history

What a sequence of reconciliations leaves: a retained snapshot stays under its name and version, or is
replaced by one that may serve its readers, and once a higher version is retained it does not change.
-/

namespace Axton.Compiler

/-! ## The text of a version -/

theorem parseVersion_toString {n : Nat} (h : n < 2 ^ 64) : parseVersion (toString n) = some n := by
  have hdigits : (Nat.toDigits 10 n).all Char.isDigit = true := by
    rw [List.all_eq_true]
    exact fun c hc => Nat.isDigit_of_mem_toDigits (by decide) (by decide) hc
  have hfirst : ∀ cs, Nat.toDigits 10 n ≠ '+' :: cs := by
    intro cs hcs
    have hplus := List.all_eq_true.1 hdigits '+' (by simp [hcs])
    revert hplus
    decide
  have hvalue : (Nat.toDigits 10 n).foldl (fun n c => 10 * n + (c.toNat - 48)) 0 = n := by
    have hsame := @Nat.ofDigitChars_ten_toDigits n
    rwa [Nat.ofDigitChars_eq_foldl] at hsame
  unfold parseVersion
  rw [Nat.toString_eq_ofList_toDigits, String.toList_ofList]
  split
  · rename_i cs hcs
    exact absurd hcs (hfirst cs)
  · have hne : (Nat.toDigits 10 n).isEmpty = false := by simp [Nat.toDigits_ne_nil]
    simp only [hne, hdigits, hvalue, Bool.not_true, Bool.or_self, Bool.false_eq_true, if_false, if_pos h]

/-! ## Captured snapshots -/

theorem capture_closed {P : Platform} {config : Schema} (hvalid : config.validate P = true) {m : ModelDescriptor}
    (hm : m ∈ config.models) : Closed (captureRead config m) := by
  have V := valid_model hvalid hm
  refine ⟨?_, ?_, fun f hf n hn => ?_, V.identity, fun n hn => ?_⟩
  · show ((m.fields.map (·.withoutCreationPolicy)).map (·.name)).Nodup
    rw [List.map_map]
    exact V.fields
  · exact List.Nodup.sublist (List.filter_sublist.map _) (valid_names hvalid).1
  · obtain ⟨g, hg, rfl⟩ := List.mem_map.1 hf
    have htype := V.field g hg
    simp only [Schema.validField, Bool.and_eq_true] at htype
    obtain ⟨hty, e, he, hname⟩ := mem_enums_scalarList htype.1.1.2 hn
    have hused : n ∈ m.fields.filterMap fun f => enumName f.valueType := by
      refine List.mem_filterMap.2 ⟨g, hg, ?_⟩
      have hty : g.valueType = .enum n := hty
      rw [hty]
      rfl
    refine ⟨e, List.mem_filter.2 ⟨he, ?_⟩, hname⟩
    rw [hname]
    simpa using hused
  · have hfield := V.named n hn
    unfold Schema.validIdentity at hfield
    rw [field_isSome]
    cases hf : m.field n with
    | none => simp [hf] at hfield
    | some f =>
      obtain ⟨hmem, hname⟩ := ModelDescriptor.mem_of_field hf
      exact ⟨f.withoutCreationPolicy, List.mem_map.2 ⟨f, hmem, rfl⟩, hname⟩

/-! ## One model -/

theorem checkLatest_ok {m : ModelDescriptor} {numbers : List Nat} {u : Unit} (h : checkLatest m numbers = .ok u) {n : Nat}
    (hn : n ∈ numbers) : n ≤ m.version := by
  unfold checkLatest at h
  cases hmax : numbers.max? with
  | none =>
    rw [List.max?_eq_none_iff] at hmax
    simp [hmax] at hn
  | some latest =>
    have hle : n ≤ latest := (List.max?_eq_some_iff.1 hmax).2 n hn
    simp only [hmax] at h
    split at h
    · cases h
    · omega

/-- What one model of the configuration does to the retained snapshots. -/
theorem retainModel_ok {config : Schema} {t t' : Contracts} {m : ModelDescriptor} (h : retainModel config t m = .ok t') :
    (∀ text r, t.get₂ m.name text = some r → r.identity = m.identity ∧
      ∀ n, parseVersion text = some n → n ≤ m.version) ∧
    (∀ old, t.get₂ m.name (toString m.version) = some old → modelBreak old (captureRead config m) = none) ∧
    t' = t.set m.name (((t.get m.name).getD []).set (toString m.version) (captureRead config m)) := by
  have hat (text : String) : t.get₂ m.name text = ((t.get m.name).getD []).get text := by
    unfold Table.get₂
    cases t.get m.name <;> rfl
  unfold retainModel at h
  simp only [bind_ok, mapM_ok] at h
  obtain ⟨numbers, hnumbers, _, hlatest, h⟩ := h
  split at h
  · cases h
  · rename_i hsame
    have hid : ∀ r ∈ (t.get m.name).getD [], r.2.identity = (captureRead config m).identity := by
      intro r hr
      by_contra hne
      exact hsame (List.any_eq_true.2 ⟨r, hr, by simpa using hne⟩)
    refine ⟨fun text r hr => ?_, fun old hold => ?_, ?_⟩
    · rw [hat] at hr
      have hmem := Table.mem_of_get hr
      refine ⟨hid _ hmem, fun n hn => ?_⟩
      obtain ⟨k, hk, hparsed⟩ := forall₂_mem_left hnumbers hmem
      simp only [retainedNumber, hn, Except.ok.injEq] at hparsed
      exact checkLatest_ok hlatest (hparsed ▸ hk)
    · rw [hat] at hold
      cases hbreak : modelBreak old (captureRead config m) with
      | none => rfl
      | some reason =>
        simp only [hold, Option.bind_some, hbreak] at h
        cases h
    · split at h
      · cases h
      · exact (pure_ok.1 h).symm

/-! ## Every model of every configuration -/

/-- Retained snapshots are filed under their own name and version, and one model has one identity. -/
structure Filed (t : Contracts) : Prop where
  closed : ∀ name text d, t.get₂ name text = some d → Closed d
  name : ∀ name text d, t.get₂ name text = some d → d.name = name
  version : ∀ name text d, t.get₂ name text = some d → text = toString d.version ∧ d.version < 2 ^ 64
  identity : ∀ name text text' d d', t.get₂ name text = some d → t.get₂ name text' = some d' → d'.identity = d.identity

/-- What later reconciliations do to a retained snapshot. -/
structure Advances (t t' : Contracts) : Prop where
  serves : ∀ name text a, t.get₂ name text = some a → ∃ b, t'.get₂ name text = some b ∧ Serves a b
  frozen : ∀ name v n, (t.get₂ name (toString n)).isSome → n < 2 ^ 64 → v < n →
    t'.get₂ name (toString v) = t.get₂ name (toString v)

theorem Advances.refl {t : Contracts} (F : Filed t) : Advances t t :=
  ⟨fun name text a ha => ⟨a, ha, serves_refl (F.closed name text a ha)⟩, fun _ _ _ _ _ _ => rfl⟩

theorem Advances.trans {t u w : Contracts} (F : Filed w) (h : Advances t u) (h' : Advances u w) : Advances t w := by
  refine ⟨fun name text a ha => ?_, fun name v n hn hle hv => ?_⟩
  · obtain ⟨b, hb, hab⟩ := h.serves name text a ha
    obtain ⟨c, hc, hbc⟩ := h'.serves name text b hb
    exact ⟨c, hc, hab.trans (F.closed name text c hc) hbc⟩
  · obtain ⟨a, ha⟩ := Option.isSome_iff_exists.1 hn
    obtain ⟨b, hb, -⟩ := h.serves name _ a ha
    rw [h'.frozen name v n (Option.isSome_iff_exists.2 ⟨b, hb⟩) hle hv, h.frozen name v n hn hle hv]

theorem retainModel_advances {P : Platform} {config : Schema} (hvalid : config.validate P = true) {t t' : Contracts}
    {m : ModelDescriptor} (hm : m ∈ config.models) (F : Filed t) (h : retainModel config t m = .ok t') :
    Filed t' ∧ Advances t t' := by
  obtain ⟨hretained, hbreak, rfl⟩ := retainModel_ok h
  have hclosed := capture_closed hvalid hm
  have hversion : m.version < 2 ^ 64 := by
    have hpositive := (valid_model hvalid hm).version
    rw [positive, Bool.and_eq_true] at hpositive
    have hsafe : m.version ≤ maxSafeInteger := of_decide_eq_true hpositive.1
    unfold maxSafeInteger at hsafe
    omega
  have hat (name text : String) : Table.get₂ (Table.set t m.name (((Table.get t m.name).getD []).set (toString m.version)
      (captureRead config m))) name text =
        if m.name = name ∧ toString m.version = text then some (captureRead config m) else t.get₂ name text :=
    Table.get₂_set t m.name name _ text _
  -- a snapshot is the one just captured, or was there before
  have hcases {name text : String} {d : ModelReadDescriptor} (hd : Table.get₂ (Table.set t m.name
      (((Table.get t m.name).getD []).set (toString m.version) (captureRead config m))) name text = some d) :
      (m.name = name ∧ toString m.version = text ∧ d = captureRead config m) ∨ t.get₂ name text = some d := by
    rw [hat] at hd
    split at hd
    · rename_i hc
      exact .inl ⟨hc.1, hc.2, (Option.some.inj hd).symm⟩
    · exact .inr hd
  refine ⟨⟨fun name text d hd => ?_, fun name text d hd => ?_, fun name text d hd => ?_,
    fun name text text' d d' hd hd' => ?_⟩, fun name text a ha => ?_, fun name v n hn hle hv => ?_⟩
  · rcases hcases hd with ⟨-, -, rfl⟩ | hd
    · exact hclosed
    · exact F.closed name text d hd
  · rcases hcases hd with ⟨hname, -, rfl⟩ | hd
    · exact hname
    · exact F.name name text d hd
  · rcases hcases hd with ⟨-, htext, rfl⟩ | hd
    · exact ⟨htext.symm, hversion⟩
    · exact F.version name text d hd
  · rcases hcases hd with ⟨rfl, -, rfl⟩ | hd
    · rcases hcases hd' with ⟨-, -, rfl⟩ | hd'
      · rfl
      · exact (hretained text' d' hd').1
    · rcases hcases hd' with ⟨rfl, -, rfl⟩ | hd'
      · exact (hretained text d hd).1.symm
      · exact F.identity name text text' d d' hd hd'
  · by_cases hc : m.name = name ∧ toString m.version = text
    · obtain ⟨rfl, rfl⟩ := hc
      refine ⟨captureRead config m, by rw [hat, if_pos ⟨rfl, rfl⟩], ?_⟩
      exact serves_of_modelBreak (F.name _ _ a ha).symm (hretained _ a ha).1.symm (hbreak a ha)
    · exact ⟨a, by rw [hat, if_neg hc, ha], serves_refl (F.closed name text a ha)⟩
  · rw [hat, if_neg]
    rintro ⟨rfl, htext⟩
    -- the declared version is not below `n`, so it is not `v`
    obtain ⟨d, hd⟩ := Option.isSome_iff_exists.1 hn
    have hdeclared := (hretained _ d hd).2 n (parseVersion_toString hle)
    have hsame : m.version = v := decimal_inj htext
    omega

/-- Models of other names, and other versions, stay as they are. -/
theorem retainModels_others {config : Schema} {models : List ModelDescriptor} {t t' : Contracts} {name text : String}
    (hno : ∀ m ∈ models, ¬ (m.name = name ∧ toString m.version = text))
    (h : models.foldlM (retainModel config) t = .ok t') : t'.get₂ name text = t.get₂ name text := by
  refine foldlM_rel (R := fun t t' : Contracts => t'.get₂ name text = t.get₂ name text) (fun _ => rfl)
    (fun _ _ _ h h' => h'.trans h) (fun m hm t t' hstep => ?_) h
  obtain ⟨-, -, rfl⟩ := retainModel_ok hstep
  rw [Table.get₂_set, if_neg (hno m hm)]

theorem retainModels_advances {P : Platform} {config : Schema} (hvalid : config.validate P = true)
    {models : List ModelDescriptor} (hsub : ∀ m ∈ models, m ∈ config.models) {t t' : Contracts}
    (h : models.foldlM (retainModel config) t = .ok t') : Filed t → Filed t' ∧ Advances t t' := by
  refine foldlM_rel (R := fun t t' : Contracts => Filed t → Filed t' ∧ Advances t t') (fun t F => ⟨F, .refl F⟩)
    (fun t u w h h' F => ?_) (fun m hm t t' hstep F => retainModel_advances hvalid (hsub m hm) F hstep) h
  obtain ⟨Fu, hu⟩ := h F
  obtain ⟨Fw, hw⟩ := h' Fu
  exact ⟨Fw, hu.trans Fw hw⟩

/-- A declared version is not below a retained one. -/
theorem retainModels_declared {P : Platform} {config : Schema} (hvalid : config.validate P = true)
    {models : List ModelDescriptor} (hsub : ∀ m ∈ models, m ∈ config.models) {t t' : Contracts} (F : Filed t)
    (h : models.foldlM (retainModel config) t = .ok t') {m : ModelDescriptor} (hm : m ∈ models) {n : Nat}
    (hn : (t.get₂ m.name (toString n)).isSome) (hle : n < 2 ^ 64) : n ≤ m.version := by
  induction models generalizing t with
  | nil => cases hm
  | cons x models ih =>
    simp only [List.foldlM_cons, bind_ok] at h
    obtain ⟨u, hu, h⟩ := h
    obtain ⟨d, hd⟩ := Option.isSome_iff_exists.1 hn
    rcases List.mem_cons.1 hm with rfl | hm
    · exact ((retainModel_ok hu).1 _ d hd).2 n (parseVersion_toString hle)
    · obtain ⟨Fu, hadv⟩ := retainModel_advances hvalid (hsub x (by simp)) F hu
      obtain ⟨b, hb, -⟩ := hadv.serves _ _ d hd
      exact ih (fun y hy => hsub y (by simp [hy])) Fu h hm (Option.isSome_iff_exists.2 ⟨b, hb⟩)

/-! ## Runs -/

/-- A configuration that the compiler validated is reconciled with the history so far. -/
def Accepts (P : Platform) (h h' : Option ModelHistory) : Prop :=
  ∃ config r, config.validate P = true ∧ reconcileModelHistory config h = .ok r ∧ h' = some r

/-- The snapshots of a history, none before the first. -/
def contracts (h : Option ModelHistory) : Contracts := (h.getD {}).models

theorem reconcile_models {config : Schema} {h : Option ModelHistory} {r : ModelHistory}
    (hr : reconcileModelHistory config h = .ok r) : config.models.foldlM (retainModel config) (contracts h) = .ok r.models := by
  unfold reconcileModelHistory at hr
  simp only at hr
  split at hr
  · cases hr
  · split at hr
    · cases hr
    · simp only [bind_ok, pure_ok] at hr
      obtain ⟨models, hmodels, rfl⟩ := hr
      exact hmodels

theorem run_advances {P : Platform} {h h' : Option ModelHistory} (run : Relation.ReflTransGen (Accepts P) h h')
    (F : Filed (contracts h)) : Filed (contracts h') ∧ Advances (contracts h) (contracts h') := by
  induction run with
  | refl => exact ⟨F, .refl F⟩
  | tail _ hstep ih =>
    obtain ⟨config, r, hvalid, hr, rfl⟩ := hstep
    obtain ⟨Fu, hu⟩ := ih
    obtain ⟨Fw, hw⟩ := retainModels_advances hvalid (fun m hm => hm) (reconcile_models hr) Fu
    exact ⟨Fw, hu.trans Fw hw⟩

theorem filed_none : Filed (contracts none) := by
  have hnone (name text : String) : Table.get₂ (contracts none) name text = none := rfl
  refine ⟨fun _ _ _ h => ?_, fun _ _ _ h => ?_, fun _ _ _ h => ?_, fun _ _ _ _ _ h => ?_⟩ <;>
    simp [hnone] at h

/-- A history that runs have led to holds versions in range. -/
theorem Filed.version_lt {h : ModelHistory} (F : Filed h.models) {name : String} {n : Nat} (hn : (h.snapshot name n).isSome) :
    n < 2 ^ 64 := by
  obtain ⟨d, hd⟩ := Option.isSome_iff_exists.1 hn
  obtain ⟨htext, hlt⟩ := F.version name _ d hd
  exact decimal_inj htext ▸ hlt

/-! ## The read contracts of a run -/

/-- Records go from the earlier snapshot `a` to the later one `b` with null for what they lack, and back
without what `a` does not know. `loader` tells `normalize_state` from `validate_state`; only the first
refuses names that the snapshot does not declare. -/
structure MutuallyReadable (P : Platform) (a b : ModelReadDescriptor) : Prop where
  key : ∀ (S S' : Schema) v key,
    (readSchema S a).recordKey P a.name v = .ok key ↔ (readSchema S' b).recordKey P b.name v = .ok key
  upgrades : ∀ (S S' : Schema) loader fs w, (loader = false → ∀ e ∈ fs, ∃ f ∈ a.fields, f.name = e.1) →
    (readSchema S a).state P a.name (.obj fs) loader = .ok w →
      ∃ w', (readSchema S' b).state P b.name (.obj (withNulls b fs)) loader = .ok w' ∧ RecordWidened a.model b.model w w'
  reads : ∀ (S S' : Schema) loader fs w', (readSchema S' b).state P b.name (.obj fs) loader = .ok (.obj w') →
    ∃ w, (readSchema S a).state P a.name (.obj (known a fs)) loader = .ok (.obj w) ∧
      (∀ x, Fields.get w x = if (a.model.field x).isSome then Fields.get w' x else none) ∧
      ∀ f ∈ a.fields, ∀ n, f.valueType = .enum n → ∀ s, Fields.get w f.name = some (.str s) → EnumValue a.enums n s
  snapshots : ∀ S S' : Schema, S.readDescriptor a.name a.version = .ok a → S'.readDescriptor b.name b.version = .ok b →
    ∀ v r', S'.normalizeReadSnapshot P b.name b.version v = .ok (.obj r') →
      ∃ r, S.normalizeReadSnapshot P a.name a.version v = .ok (.obj r) ∧
        ∀ x, Fields.get r x = if (a.model.field x).isSome then Fields.get r' x else none

theorem Serves.mutuallyReadable (P : Platform) {a b : ModelReadDescriptor} (C : Closed a) (D : Closed b) (V : Serves a b) :
    MutuallyReadable P a b := by
  refine ⟨fun S S' v key => V.recordKey_iff C D S S', fun S S' loader fs w hdeclared h => ?_,
    fun S S' loader fs w' h => ?_, fun S S' ha hb v r' h => V.read_snapshot C D ha hb h⟩
  · refine V.state_upgrade C D S S' ?_ h
    cases loader with
    | false => exact hdeclared rfl
    | true =>
      obtain ⟨input, _, hinput, -, hnames, -⟩ := (state_iff (model_readSchema S a) C.fields).1 h
      cases hinput
      exact hnames
  · obtain ⟨w, hw, hget⟩ := V.state_read C D S S' h
    exact ⟨w, hw, hget, fun f hf n hty s hs => state_enums C S hw hf hty hs⟩

/-- **The history of read contracts is sound.** Of two histories of a run, the later holds every snapshot
of the earlier or one that is mutually readable with it; a model has one identity in all of them; no
configuration declares a version below a retained one; and a snapshot below a retained version, or below
the declared one, stays as it is. -/
theorem model_history_sound (P : Platform) {h h' : ModelHistory} (start : Relation.ReflTransGen (Accepts P) none (some h))
    (run : Relation.ReflTransGen (Accepts P) (some h) (some h')) :
    (∀ name v a, h.snapshot name v = some a → ∃ b, h'.snapshot name v = some b ∧ MutuallyReadable P a b) ∧
      (∀ name v v' a b, h.snapshot name v = some a → h'.snapshot name v' = some b → b.identity = a.identity) ∧
      (∀ config r, config.validate P = true → reconcileModelHistory config (some h') = .ok r → ∀ m ∈ config.models,
        (∀ v, (h.snapshot m.name v).isSome → v ≤ m.version) ∧
          ∀ v < m.version, r.snapshot m.name v = h'.snapshot m.name v) ∧
      ∀ name v n, (h.snapshot name n).isSome → v < n → h'.snapshot name v = h.snapshot name v := by
  obtain ⟨F, -⟩ := run_advances start filed_none
  obtain ⟨F', hadv⟩ := run_advances run F
  refine ⟨fun name v a ha => ?_, fun name v v' a b ha hb => ?_, fun config r hvalid hr m hm => ⟨fun v hv => ?_, fun v hv => ?_⟩,
    fun name v n hn hv => hadv.frozen name v n hn (F.version_lt hn) hv⟩
  · obtain ⟨b, hb, V⟩ := hadv.serves name _ a ha
    exact ⟨b, hb, V.mutuallyReadable P (F.closed name _ a ha) (F'.closed name _ b hb)⟩
  · obtain ⟨c, hc, V⟩ := hadv.serves name _ a ha
    exact (F'.identity name _ _ c b hc hb).trans V.identity
  · obtain ⟨a, ha⟩ := Option.isSome_iff_exists.1 hv
    obtain ⟨b, hb, -⟩ := hadv.serves _ _ a ha
    exact retainModels_declared hvalid (fun m hm => hm) F' (reconcile_models hr) hm (Option.isSome_iff_exists.2 ⟨b, hb⟩)
      (F.version_lt hv)
  · refine retainModels_others (fun x hx hsame => ?_) (reconcile_models hr)
    have hxm : x = m := List.inj_on_of_nodup_map (valid_names hvalid).2 hx hm hsame.1
    subst hxm
    have hversion := decimal_inj hsame.2
    omega

/-! ## A model that gains a field, then a version -/

namespace Journal

def text (name : String) (nullable : Bool) : FieldDescriptor := { name, valueType := .scalar .string, nullable }

def entry (version : Nat) (fields : List FieldDescriptor) : Schema where
  models := [{ name := "entry", version, identity := ["id"], fields := text "id" false :: fields }]

/-- Published with a title. -/
def first : Schema := entry 1 [text "title" false]

/-- The same version with an optional note. -/
def noted : Schema := entry 1 [text "title" false, text "note" true]

/-- A second version, with a place in every record. -/
def placed : Schema := entry 2 [text "title" false, text "place" false]

/-- The history in which each schema was the last of its version. -/
def history (schemas : List Schema) : ModelHistory where
  models := [("entry", schemas.flatMap fun c => c.models.map fun m => (toString m.version, captureRead c m))]

theorem accepts (c : Schema) (h : Option ModelHistory) (r : ModelHistory) (hvalid : c.validate Notes.platform = true)
    (hr : (reconcileModelHistory c h).toOption = some r) : Accepts Notes.platform h (some r) :=
  ⟨c, r, hvalid, ok_of_toOption hr, rfl⟩

theorem starts : Relation.ReflTransGen (Accepts Notes.platform) none (some (history [first])) :=
  .single (accepts first _ _ (by decide +kernel) (by decide +kernel))

theorem continues :
    Relation.ReflTransGen (Accepts Notes.platform) (some (history [first])) (some (history [noted, placed])) :=
  .tail (.single (accepts noted _ (history [noted]) (by decide +kernel) (by decide +kernel)))
    (accepts placed _ _ (by decide +kernel) (by decide +kernel))

end Journal

/-- The first snapshot of a journal entry and the one that replaced it read each other's records. -/
theorem model_history_sound_journal :
    ∃ a b, (Journal.history [Journal.first]).snapshot "entry" 1 = some a ∧
      (Journal.history [Journal.noted, Journal.placed]).snapshot "entry" 1 = some b ∧ a ≠ b ∧
        MutuallyReadable Notes.platform a b := by
  obtain ⟨b, hb, hread⟩ := (model_history_sound Notes.platform Journal.starts Journal.continues).1 "entry" 1 _ rfl
  refine ⟨_, b, rfl, hb, ?_, hread⟩
  rintro rfl
  revert hb
  decide +kernel

end Axton.Compiler
