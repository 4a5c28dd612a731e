import Axton.Core.Arguments
import Axton.Core.Normalized
import Axton.Core.Reader

/-!
# Normalizing again

A value is normalized at every hop: by the client, from the text of its queue, by the server, by a loader and by the
store. What a normalizer returned is handed to it again, either as it is or printed as canonical JSON and parsed.

| here | there |
| --- | --- |
| `Chrono`                     | `parse_from_rfc3339` and `to_rfc3339_opts(Millis, true)` as `scalar` uses them (schema.rs:490) |

Strings, booleans, integers, UUIDs and enum values stay. A zoned time stays when the year it names in UTC has four digits:
else its text has a sign, and the byte that `scalar` looks at is a digit. A float stays when the reader of numbers takes its
text for the same double.

All normalizers see their input through its normal form (`…_normal`), so that reading a text back is one more way to
present the value that was written; `readAs` says which.
-/

namespace Axton

/-- What `chrono` documents of the times `scalar` reads and prints: the year in UTC, and the text of a time in a year of
four digits or of another. -/
structure Chrono (P : Platform) where
  year : String → Int
  plain : ∀ s t, P.dateTime s = some t → 0 ≤ year s ∧ year s ≤ 9999 →
    20 ≤ t.utf8ByteSize ∧ t.toUTF8.data[10]? = some 84 ∧ P.dateTime t = some t
  extended : ∀ s t, P.dateTime s = some t → ¬ (0 ≤ year s ∧ year s ≤ 9999) → t.toUTF8.data[10]? ≠ some 84

/-- Integers of the safe range are taken for themselves. -/
def IntegersRead (value : Rat → Rat) : Prop := ∀ k : Int, k.natAbs ≤ maxSafeInteger → value k = k

/-! ## Values that stay -/

section
variable (year : String → Int) (value : Rat → Rat)

/-- A scalar whose normal form stays. -/
def ScalarKept : ScalarType → Json → Prop
  | .dateTime, .str s => 0 ≤ year s ∧ year s ≤ 9999
  | .float, .num n => value n.asF64 = n.asF64
  | _, _ => True

def TypeKept : ValueType → Json → Prop
  | .scalar t, v => ScalarKept year value t v
  | .list element, .arr xs => ∀ x ∈ xs, TypeKept element x
  | _, _ => True

/-- Every entry that names one of the fields stays. -/
def FieldsKept (fields : List FieldDescriptor) (object : Fields) : Prop :=
  ∀ f ∈ fields, ∀ v, Fields.get object f.name = some v → TypeKept year value f.valueType v

/-- The operands of a Model slot, or the value of another input. -/
def OperandsKept (S : Schema) : ActionInput → Json → Prop
  | .value _ ty _ list, v => TypeKept year value (if list then .list ty else ty) v
  | .model _ model _ cardinality _ _, v => ∀ m, S.model model = .ok m → ∀ xs, operands cardinality v = .ok xs →
    ∀ x ∈ xs, FieldsKept year value m.fields x.fields

end

/-! ## Scalars -/

theorem ofInt_asF64 {z : Int} (h : z.natAbs ≤ maxSafeInteger) : (Num.ofInt z).asF64 = z := by
  unfold maxSafeInteger at h
  cases z with
  | ofNat n =>
    show ((natToF64 n : Nat) : Rat) = ((n : Int) : Rat)
    rw [natToF64_small (by simp at h; omega), Int.cast_natCast]
  | negSucc n =>
    show -((natToF64 (n + 1) : Nat) : Rat) = ((Int.negSucc n : Int) : Rat)
    rw [natToF64_small (by simp at h; omega), Int.cast_negSucc]

theorem ofInt_safe {z : Int} (h : z.natAbs ≤ maxSafeInteger) : (Num.ofInt z).Safe := by
  cases z with
  | ofNat n => exact h
  | negSucc n => exact h

theorem asF64_float (q : Rat) : (Num.float q).asF64 = q := rfl

/-- What `scalar` returns: a text or a flag, an integer in the safe range, or a double. -/
theorem scalar_result {P : Platform} {ty : ScalarType} {v w : Json} (h : scalar P ty v = .ok w) :
    (∃ s, w = .str s) ∨ (∃ b, w = .bool b) ∨ (ty = .int ∧ ∃ z : Int, z.natAbs ≤ maxSafeInteger ∧
    w = .num (.ofInt z)) ∨
      (ty = .float ∧ ∃ n, v = .num n ∧ w = .num (.float n.asF64)) := by
  cases ty with
  | string =>
    cases v with
    | str s =>
      cases h
      exact .inl ⟨s, rfl⟩
    | _ => simp [scalar] at h
  | boolean =>
    cases v with
    | bool b =>
      cases h
      exact .inr (.inl ⟨b, rfl⟩)
    | _ => simp [scalar] at h
  | int =>
    cases v with
    | num n =>
      simp only [scalar] at h
      split at h
      · rename_i hsafe
        cases h
        exact .inr (.inr (.inl ⟨rfl, _, hsafe.2, rfl⟩))
      · cases h
    | _ => simp [scalar] at h
  | float =>
    cases v with
    | num n =>
      cases h
      exact .inr (.inr (.inr ⟨rfl, n, rfl, rfl⟩))
    | _ => simp [scalar] at h
  | dateTime =>
    cases v with
    | str s =>
      simp only [scalar] at h
      split at h
      · cases h
      · split at h
        · cases h
          exact .inl ⟨_, rfl⟩
        · cases h
    | _ => simp [scalar] at h
  | uuid =>
    cases v with
    | str s =>
      simp only [scalar, map_ok] at h
      obtain ⟨u, -, rfl⟩ := h
      exact .inl ⟨u, rfl⟩
    | _ => simp [scalar] at h

theorem scalar_safe {P : Platform} {ty : ScalarType} {v w : Json} (h : scalar P ty v = .ok w)
    (hv : ∀ n, v = .num n → n.Held) : w.Safe := by
  rcases scalar_result h with ⟨s, rfl⟩ | ⟨b, rfl⟩ | ⟨-, z, hz, rfl⟩ | ⟨-, n, rfl, rfl⟩
  · exact trivial
  · exact trivial
  · exact ofInt_safe hz
  · exact (hv n rfl).isF64

/-! ## Types -/

section
variable {P : Platform} (C : Chrono P) {value : Rat → Rat} (hint : IntegersRead value)
include hint

/-- The normal form of a scalar, read back, is normalized to itself when the scalar is kept. -/
theorem scalar_again {t : ScalarType} {v w : Json} (h : scalar P t v = .ok w) :
    scalar P t (w.readAs value) = .ok w ↔ ScalarKept C.year value t v := by
  cases t with
  | string =>
    cases v <;> simp only [scalar, Except.ok.injEq, reduceCtorEq] at h
    subst h
    simp [Json.readAs, scalar, ScalarKept]
  | boolean =>
    cases v <;> simp only [scalar, Except.ok.injEq, reduceCtorEq] at h
    subst h
    simp [Json.readAs, scalar, ScalarKept]
  | int =>
    cases v with
    | num n =>
      simp only [scalar] at h
      split at h
      · rename_i hint'
        rw [Except.ok.injEq] at h
        subst h
        have hread : value (Num.ofInt n.asF64.num).asF64 = (n.asF64.num : Rat) := by
          rw [ofInt_asF64 hint'.2, hint _ hint'.2]
        simp only [Json.readAs, ScalarKept, iff_true]
        rw [hread]
        have hsafe : scalar P .int (.num (.float (n.asF64.num : Rat))) = .ok (.num (.ofInt n.asF64.num)) :=
          if_pos ⟨Rat.den_intCast _, hint'.2⟩
        exact hsafe
      · cases h
    | _ => simp [scalar] at h
  | float =>
    cases v with
    | num n =>
      simp only [scalar, Except.ok.injEq] at h
      subst h
      simp [Json.readAs, scalar, Num.asF64, ScalarKept]
    | _ => simp [scalar] at h
  | uuid =>
    cases v with
    | str s =>
      simp only [scalar] at h
      rw [map_ok] at h
      obtain ⟨u, hu, rfl⟩ := h
      simp [Json.readAs, scalar, normalizeUuid_again hu, Except.map, ScalarKept]
    | _ => simp [scalar] at h
  | dateTime =>
    cases v with
    | str s =>
      simp only [scalar] at h
      split at h
      · cases h
      · cases hd : P.dateTime s with
        | none => simp [hd] at h
        | some t =>
          simp only [hd, Except.ok.injEq] at h
          subst h
          simp only [Json.readAs, ScalarKept, scalar]
          by_cases hyear : 0 ≤ C.year s ∧ C.year s ≤ 9999
          · obtain ⟨hlen, hbyte, hagain⟩ := C.plain s t hd hyear
            have hshape : ¬ (t.utf8ByteSize < 20 ∨ t.toUTF8.data[10]? ≠ some 84) := by
              rintro (hlt | hne)
              · omega
              · exact hne hbyte
            rw [if_neg hshape, hagain]
            exact iff_of_true rfl hyear
          · have hbyte := C.extended s t hd hyear
            rw [if_pos (.inr hbyte)]
            refine iff_of_false (fun h => ?_) hyear
            cases h
    | _ => simp [scalar] at h

theorem normalizeType_again {enums : List EnumDescriptor} {ty : ValueType} {v w : Json}
    (h : normalizeType P enums ty v = .ok w) :
    normalizeType P enums ty (w.readAs value) = .ok w ↔ TypeKept C.year value ty v := by
  induction ty generalizing v w with
  | scalar t => exact scalar_again C hint h
  | enum name =>
    unfold normalizeType at h
    cases v with
    | str s =>
      simp only [Json.asStr] at h
      split at h
      · rename_i hin
        rw [Except.ok.injEq] at h
        subst h
        simp only [Json.readAs, normalizeType, Json.asStr, TypeKept, iff_true]
        rw [if_pos hin]
      · cases h
    | _ => simp [Json.asStr] at h
  | list element ih =>
    unfold normalizeType at h
    cases v with
    | arr xs =>
      simp only [Json.asArray, map_ok, mapM_ok] at h
      obtain ⟨ys, hys, rfl⟩ := h
      simp only [Json.readAs, Json.readAsItems_eq, normalizeType, Json.asArray, map_ok,
        Json.arr.injEq, exists_eq_right,
        mapM_ok, List.forall₂_map_left_iff, TypeKept]
      induction hys with
      | nil => simp
      | cons hxy _ ihs => rw [List.forall₂_cons, ih hxy, ihs, List.forall_mem_cons]
    | _ => simp [Json.asArray] at h

omit hint in
theorem isNull_readAs (v : Json) : (v.readAs value).isNull = v.isNull := by
  cases v <;> rfl

omit hint in
theorem typeKept_null (ty : ValueType) : TypeKept C.year value ty .null := by
  cases ty with
  | scalar t => cases t <;> trivial
  | enum name => trivial
  | list element => trivial

end

/-! ## What is returned -/

mutual
/-- Every number in it is one `serde_json` can hold, and every object a map. -/
def Json.Held : Json → Prop
  | .num n => n.Held
  | .arr xs => HeldItems xs
  | .obj fs => Fields.Ordered fs ∧ HeldEntries fs
  | _ => True
def Json.HeldItems : List Json → Prop
  | [] => True
  | x :: xs => x.Held ∧ HeldItems xs
def Json.HeldEntries : Fields → Prop
  | [] => True
  | e :: fs => e.2.Held ∧ HeldEntries fs
end

theorem Json.held_arr {xs : List Json} : (Json.arr xs).Held ↔ ∀ x ∈ xs, x.Held := by
  have hitems : HeldItems xs ↔ ∀ x ∈ xs, x.Held := by
    induction xs with
    | nil => simp [HeldItems]
    | cons x xs ih => simp [HeldItems, ih]
  rw [Held, hitems]

theorem Json.held_obj {fs : Fields} : (Json.obj fs).Held ↔ fs.Ordered ∧ ∀ e ∈ fs, e.2.Held := by
  have hentries : HeldEntries fs ↔ ∀ e ∈ fs, e.2.Held := by
    induction fs with
    | nil => simp [HeldEntries]
    | cons e fs ih => simp [HeldEntries, ih]
  rw [Held, hentries]

/-- What a normalizer returns: objects are maps, and numbers safe. -/
def Json.Tame (v : Json) : Prop := v.Keyed ∧ v.Safe

theorem scalar_tame {P : Platform} {t : ScalarType} {v w : Json} (hv : v.Held) (h : scalar P t v = .ok w) :
    w.Tame ∧ w.isNull = false := by
  have hsafe : w.Safe := scalar_safe h fun n hn => by
    subst hn
    exact hv
  obtain ⟨s, rfl⟩ | ⟨b, rfl⟩ | ⟨-, z, -, rfl⟩ | ⟨-, n, -, rfl⟩ := scalar_result h <;> exact ⟨⟨trivial, hsafe⟩, rfl⟩

theorem normalizeType_tame {P : Platform} {enums : List EnumDescriptor} {ty : ValueType} {v w : Json}
    (hv : v.Held)
    (h : normalizeType P enums ty v = .ok w) : w.Tame ∧ w.isNull = false := by
  induction ty generalizing v w with
  | scalar t => exact scalar_tame hv h
  | enum name =>
    unfold normalizeType at h
    cases v with
    | str s =>
      simp only [Json.asStr] at h
      split at h
      · cases h
        exact ⟨⟨trivial, trivial⟩, rfl⟩
      · cases h
    | _ => simp [Json.asStr] at h
  | list element ih =>
    unfold normalizeType at h
    cases v with
    | arr xs =>
      simp only [Json.asArray, map_ok, mapM_ok] at h
      obtain ⟨ys, hys, rfl⟩ := h
      have hall : ∀ y ∈ ys, y.Tame := by
        intro y hy
        obtain ⟨x, hx, hxy⟩ := forall₂_mem_right hys hy
        exact (ih (Json.held_arr.1 hv x hx) hxy).1
      exact ⟨⟨Json.keyed_arr.2 fun y hy => (hall y hy).1, Json.safe_arr.2 fun y hy => (hall y hy).2⟩, rfl⟩
    | _ => simp [Json.asArray] at h

theorem normalizeValue_tame {P : Platform} {enums : List EnumDescriptor} {f : FieldDescriptor}
    {v w : Json} (hv : v.Held)
    (h : normalizeValue P enums f v = .ok w) : w.Tame := by
  unfold normalizeValue at h
  split at h
  · split at h
    · cases h
      exact ⟨trivial, trivial⟩
    · cases h
  · exact (normalizeType_tame hv h).1

theorem Json.tame_obj {fs : Fields} (hn : fs.Ordered) (h : ∀ e ∈ fs, e.2.Tame) : (Json.obj fs).Tame :=
  ⟨Json.keyed_obj.2 ⟨hn, fun e he => (h e he).1⟩, Json.safe_obj.2 ⟨hn.names_nodup, fun e he => (h e he).2⟩⟩

theorem normalizeValue_again {P : Platform} (C : Chrono P) {value : Rat → Rat} (hint : IntegersRead value)
    {enums : List EnumDescriptor} {f : FieldDescriptor} {v w : Json} (hv : v.Held)
    (h : normalizeValue P enums f v = .ok w) :
    normalizeValue P enums f (w.readAs value) = .ok w ↔ TypeKept C.year value f.valueType v := by
  unfold normalizeValue at h ⊢
  rw [isNull_readAs]
  split at h
  · rename_i hnull
    cases v <;> simp only [Json.isNull, Bool.false_eq_true] at hnull
    split at h
    · rename_i hnullable
      cases h
      simp [Json.isNull, hnullable, typeKept_null]
    · cases h
  · rw [(normalizeType_tame hv h).2, if_neg (by simp)]
    exact normalizeType_again C hint h

/-! ## Normalizers see the normal form -/

namespace Fields

theorem get_map (g : Json → Json) (fs : Fields) (name : String) :
    get (fs.map fun e => (e.1, g e.2)) name = (get fs name).map g := by
  induction fs with
  | nil => rfl
  | cons e fs ih =>
    obtain ⟨k, v⟩ := e
    by_cases hk : k = name
    · simp [get, hk]
    · simp [get, hk, ih]

theorem ordered_map (g : Json → Json) {fs : Fields} (h : fs.Ordered) : Ordered (fs.map fun e => (e.1, g e.2)) :=
  List.pairwise_map.2 h

theorem extend_self {fs : Fields} (h : fs.Ordered) : extend [] fs = fs := by
  refine (extend_ordered .nil fs).ext_get h fun name => ?_
  rw [h.get_extend]
  cases get fs name <;> rfl

end Fields

theorem Json.normal_obj {fs : Fields} (h : fs.Ordered) :
    (Json.obj fs).normal = .obj (fs.map fun e => (e.1, e.2.normal)) := by
  rw [normal, normalEntries_eq, Fields.extend_self (Fields.ordered_map _ h)]

theorem Json.readAs_obj (value : Rat → Rat) {fs : Fields} (h : fs.Ordered) :
    (Json.obj fs).readAs value = .obj (fs.map fun e => (e.1, e.2.readAs value)) := by
  rw [readAs, readAsEntries_eq, Fields.extend_self (Fields.ordered_map _ h)]

section
variable {P : Platform} {enums : List EnumDescriptor} {S : Schema} {m : ModelDescriptor} {name : String}

theorem scalar_normal (t : ScalarType) (v : Json) : scalar P t v.normal = scalar P t v := by
  cases t <;> cases v <;> rfl

theorem normalizeType_normal (ty : ValueType) (v : Json) :
    normalizeType P enums ty v.normal = normalizeType P enums ty v := by
  induction ty generalizing v with
  | scalar t => exact scalar_normal t v
  | enum name => cases v <;> rfl
  | list element ih =>
    cases v with
    | arr xs =>
      simp only [Json.normal, Json.normalItems_eq, normalizeType, Json.asArray, List.mapM_map]
      congr 2
      funext x
      exact ih x
    | _ => rfl

theorem isNull_normal (v : Json) : v.normal.isNull = v.isNull := by
  cases v <;> rfl

theorem normalizeValue_normal (f : FieldDescriptor) (v : Json) :
    normalizeValue P enums f v.normal = normalizeValue P enums f v := by
  unfold normalizeValue
  rw [isNull_normal, normalizeType_normal]

theorem identityFields_normal (input : Fields) :
    S.identityFields P m (input.map fun e => (e.1, e.2.normal)) = S.identityFields P m input := by
  unfold Schema.identityFields
  congr 1
  funext acc name
  rw [Fields.get_map]
  cases m.field name with
  | none => rfl
  | some f =>
    cases Fields.get input name with
    | none => rfl
    | some v => simp only [Option.map_some, normalizeValue_normal]

theorem recordKey_normal {v : Json} (h : v.Keyed) : S.recordKey P name v.normal = S.recordKey P name v := by
  cases v with
  | obj input =>
    rw [Json.normal_obj (Json.keyed_obj.1 h).1]
    unfold Schema.recordKey
    simp only [Json.asObject, List.length_map, List.any_map, Function.comp_def, identityFields_normal]
  | _ => rfl

theorem state_normal {v : Json} (h : v.Keyed) (loader : Bool) :
    S.state P name v.normal loader = S.state P name v loader := by
  cases v with
  | obj input =>
    rw [Json.normal_obj (Json.keyed_obj.1 h).1]
    unfold Schema.state
    simp only [Json.asObject, List.any_map, Function.comp_def]
    congr 1
    funext m
    congr 2
    congr 1
    funext acc f
    rw [Fields.get_map]
    cases Fields.get input f.name with
    | none => rfl
    | some v =>
      show (normalizeValue P S.enums f v.normal >>= fun w => pure (Fields.insert acc f.name w)) = _
      rw [normalizeValue_normal]
      rfl
  | _ => rfl

theorem validatePatch_normal {v : Json} (h : v.Keyed) :
    S.validatePatch P name v.normal = S.validatePatch P name v := by
  cases v with
  | obj input =>
    rw [Json.normal_obj (Json.keyed_obj.1 h).1]
    unfold Schema.validatePatch
    simp only [Json.asObject, List.foldlM_map, normalizeValue_normal]
  | _ => rfl

end

/-! ## Records again -/

/-- A map of the values of `xs` is the map of other values exactly when these are the same. -/
theorem Collects.again {α : Type} {name : α → String} {val val' : α → Except String Json}
    {xs : List α} {out : Fields}
    (h : Collects name val xs out) : Collects name val' xs out ↔ ∀ x ∈ xs, ∀ v, val x = .ok v →
    val' x = .ok v := by
  constructor
  · intro h' x hx v hv
    obtain ⟨u, hu, hget⟩ := h.value x hx
    obtain ⟨u', hu', hget'⟩ := h'.value x hx
    rw [hu, Except.ok.injEq] at hv
    rw [hget, Option.some.injEq] at hget'
    rw [hu', ← hget', hv]
  · intro hsame
    refine ⟨h.ordered, fun x hx => ?_, h.only⟩
    obtain ⟨v, hv, hget⟩ := h.value x hx
    exact ⟨v, hsame x hx v hv, hget⟩

/-- The names of the map are those of `xs`. -/
theorem Collects.length_eq {α : Type} {name : α → String} {val : α → Except String Json} {xs : List α}
    {out : Fields}
    (h : Collects name val xs out) (hn : (xs.map name).Nodup) : out.length = xs.length := by
  have hperm : (out.map (·.1)).Perm (xs.map name) := by
    refine (List.perm_ext_iff_of_nodup h.ordered.names_nodup hn).2 fun k => ?_
    simp only [List.mem_map]
    constructor
    · rintro ⟨e, he, rfl⟩
      exact h.only e he
    · rintro ⟨x, hx, rfl⟩
      obtain ⟨v, -, hget⟩ := h.value x hx
      exact ⟨_, Fields.mem_of_get hget, rfl⟩
  simpa using hperm.length_eq

theorem Json.held_get {fs : Fields} (hv : (Json.obj fs).Held) {k : String} {v : Json}
    (h : Fields.get fs k = some v) :
    v.Held :=
  (Json.held_obj.1 hv).2 _ (Fields.mem_of_get h)

/-- `fs` as it is read back. -/
def Fields.readAs (value : Rat → Rat) (fs : Fields) : Fields := fs.map fun e => (e.1, e.2.readAs value)

section
variable {P : Platform} (C : Chrono P) {value : Rat → Rat} (hint : IntegersRead value)
variable {S : Schema} {m : ModelDescriptor} {input out : Fields} (hv : (Json.obj input).Held)
include hint hv

theorem stateValue_again {f : FieldDescriptor} {w : Json} (h : stateValue P S input f = .ok w)
    (hget : Fields.get out f.name = some w) : stateValue P S (out.readAs value) f = .ok w ↔
      ∀ v, Fields.get input f.name = some v → TypeKept C.year value f.valueType v := by
  have hread : stateValue P S (out.readAs value) f = normalizeValue P S.enums f (w.readAs value) := by
    simp only [stateValue, Fields.readAs, Fields.get_map, hget, Option.map_some]
  rw [hread]
  unfold stateValue at h
  cases hf : Fields.get input f.name with
  | some v =>
    simp only [hf] at h
    rw [normalizeValue_again C hint (Json.held_get hv hf) h]
    simp
  | none =>
    simp only [hf] at h
    split at h
    · rename_i hnull
      simp only [normalizeValue, Json.isNull, hnull, if_true, Except.ok.injEq] at h
      subst h
      simp [normalizeValue, Json.readAs, Json.isNull, hnull]
    · cases h

theorem identityValue_again {k : String} {w : Json} (h : identityValue P S m input k = .ok w)
    (hget : Fields.get out k = some w) : identityValue P S m (out.readAs value) k = .ok w ↔
      ∀ f, m.field k = some f → ∀ v, Fields.get input k = some v → TypeKept C.year value f.valueType v := by
  unfold identityValue at h ⊢
  cases hf : m.field k with
  | none => simp [hf] at h
  | some f =>
    cases hk : Fields.get input k with
    | none => simp [hf, hk] at h
    | some v =>
      simp only [hf, hk] at h
      simp only [Fields.readAs, Fields.get_map, hget, Option.map_some, Option.some.injEq, forall_eq']
      exact normalizeValue_again C hint (Json.held_get hv hk) h

theorem patchValue_again {e : String × Json} {w : Json} (he : e ∈ input) (h : patchValue P S m e = .ok w) :
    patchValue P S m (e.1, w.readAs value) = .ok w ↔
      ∀ f, m.field e.1 = some f → TypeKept C.year value f.valueType e.2 := by
  unfold patchValue at h ⊢
  split at h
  · cases h
  · rename_i hid
    rw [if_neg hid]
    cases hf : m.field e.1 with
    | none => simp [hf] at h
    | some f =>
      simp only [hf] at h
      simp only [Option.some.injEq, forall_eq']
      exact normalizeValue_again C hint ((Json.held_obj.1 hv).2 e he) h

end

theorem Fields.readAs_obj (value : Rat → Rat) {fs : Fields} (h : fs.Ordered) :
    (Json.obj fs).readAs value = .obj (fs.readAs value) :=
  Json.readAs_obj value h

theorem Fields.readAs_ordered {value : Rat → Rat} {fs : Fields} (h : fs.Ordered) : (fs.readAs value).Ordered :=
  ordered_map _ h

theorem Fields.mem_readAs {value : Rat → Rat} {fs : Fields} {e : String × Json} :
    e ∈ fs.readAs value ↔ ∃ w, (e.1, w) ∈ fs ∧ e.2 = w.readAs value := by
  simp only [readAs, List.mem_map, Prod.exists]
  constructor
  · rintro ⟨k, w, hw, rfl⟩
    exact ⟨w, hw, rfl⟩
  · rintro ⟨w, hw, he⟩
    exact ⟨e.1, w, hw, by rw [← he]⟩

theorem Json.fields_obj (fs : Fields) : (Json.obj fs).fields = fs := rfl

/-- The entries of a map that name a declared field stay. -/
theorem fieldsKept_iff {year : String → Int} {value : Rat → Rat} {m : ModelDescriptor}
    (hn : (m.fields.map (·.name)).Nodup)
    {object : Fields} (ho : object.Ordered) : FieldsKept year value m.fields object ↔
      ∀ e ∈ object, ∀ f, m.field e.1 = some f → TypeKept year value f.valueType e.2 := by
  constructor
  · intro h e he f hf
    obtain ⟨hmem, hname⟩ := m.mem_of_field hf
    exact h f hmem e.2 (by rw [hname]; exact ho.get_of_mem he)
  · intro h f hf v hv
    exact h (f.name, v) (Fields.mem_of_get hv) f (m.field_of_mem hn hf)

theorem patch_object {P : Platform} {S : Schema} {name : String} {v w : Json}
    (h : S.validatePatch P name v = .ok w) :
    ∃ input, v = .obj input := by
  unfold Schema.validatePatch at h
  obtain ⟨_, -, h⟩ := bind_ok.1 h
  cases v <;> first | exact ⟨_, rfl⟩ | simp [Json.asObject] at h

section
variable {P : Platform} (C : Chrono P) {value : Rat → Rat} (hint : IntegersRead value)
variable {S : Schema} {name : String} {m : ModelDescriptor} (hm : S.model name = .ok m)
  (hn : (m.fields.map (·.name)).Nodup) {v w : Json} (hv : v.Held)
include hint hm hn hv

/-- What either reader of states returned is read to itself by both, when its fields stay. -/
theorem state_again {loader : Bool} (h : S.state P name v loader = .ok w) (loader' : Bool) :
    S.state P name (w.readAs value) loader' = .ok w ↔ FieldsKept C.year value m.stateFields v.fields := by
  obtain ⟨input, out, rfl, rfl, -, hout⟩ := (state_iff hm hn).1 h
  have hnames : StateNames m loader' (Fields.readAs value out) := by
    intro e he
    obtain ⟨w, hw, -⟩ := Fields.mem_readAs.1 he
    obtain ⟨f, hf, hname⟩ := hout.only _ hw
    obtain ⟨hmem, hid⟩ := m.mem_stateFields.1 hf
    cases loader' with
    | true => exact ⟨f, hmem, hname⟩
    | false => exact hname ▸ hid
  rw [Fields.readAs_obj value hout.ordered, state_iff hm hn]
  have hsplit : (∃ input' out', Json.obj (Fields.readAs value out) = .obj input' ∧ Json.obj out = .obj out' ∧
      StateNames m loader' input' ∧ Collects (·.name) (stateValue P S input') m.stateFields out') ↔
      Collects (·.name) (stateValue P S (Fields.readAs value out)) m.stateFields out := by
    constructor
    · rintro ⟨_, _, ⟨⟩, ⟨⟩, -, h⟩
      exact h
    · exact fun h => ⟨_, _, rfl, rfl, hnames, h⟩
  rw [hsplit, hout.again]
  refine forall₂_congr fun f hf => ?_
  obtain ⟨u, hu, hget⟩ := hout.value f hf
  have hone := stateValue_again C hint hv hu hget
  rw [hu]
  simp only [Except.ok.injEq, forall_eq']
  exact hone

theorem recordKey_again (hid : m.identity.Nodup) {key : RecordKey} (h : S.recordKey P name v = .ok key) :
    S.recordKey P name (key.identity.readAs value) = .ok key ↔ FieldsKept C.year value m.fields v.fields := by
  obtain ⟨input, out, rfl, rfl, hlen, hmem, hout⟩ := (recordKey_iff hm hid).1 h
  have hord := (Json.held_obj.1 hv).1
  have hlen' : (Fields.readAs value out).length = m.identity.length := by
    rw [Fields.readAs, List.length_map, hout.length_eq (by rwa [List.map_id'])]
  have hnames : ∀ e ∈ Fields.readAs value out, e.1 ∈ m.identity := by
    intro e he
    obtain ⟨w, hw, -⟩ := Fields.mem_readAs.1 he
    obtain ⟨k, hk, rfl⟩ := hout.only _ hw
    exact hk
  rw [Fields.readAs_obj value hout.ordered, recordKey_iff hm hid]
  have hsplit : (∃ input' out', Json.obj (Fields.readAs value out) = .obj input' ∧
      (⟨name, .obj out⟩ : RecordKey) = ⟨name, .obj out'⟩ ∧ input'.length = m.identity.length ∧
      (∀ e ∈ input', e.1 ∈ m.identity) ∧ Collects (fun n => n) (identityValue P S m input') m.identity out') ↔
      Collects (fun n => n) (identityValue P S m (Fields.readAs value out)) m.identity out := by
    constructor
    · rintro ⟨_, _, ⟨⟩, ⟨⟩, -, -, h⟩
      exact h
    · exact fun h => ⟨_, _, rfl, rfl, hlen', hnames, h⟩
  rw [hsplit, hout.again, Json.fields_obj, fieldsKept_iff hn hord]
  constructor
  · intro hall e he f hf
    obtain ⟨u, hu, hget⟩ := hout.value e.1 (hmem e he)
    exact (identityValue_again C hint hv hu hget).1 (hall e.1 (hmem e he) u hu) f hf e.2 (hord.get_of_mem he)
  · intro hkept k hk u hu
    obtain ⟨u', hu', hget⟩ := hout.value k hk
    rw [hu, Except.ok.injEq] at hu'
    refine (identityValue_again C hint hv hu (hu' ▸ hget)).2 fun f hf x hx => ?_
    exact hkept (k, x) (Fields.mem_of_get hx) f hf

theorem validatePatch_again (h : S.validatePatch P name v = .ok w) :
    S.validatePatch P name (w.readAs value) = .ok w ↔ FieldsKept C.year value m.fields v.fields := by
  obtain ⟨input, rfl⟩ := patch_object h
  have hord := (Json.held_obj.1 hv).1
  obtain ⟨out, rfl, hout⟩ := (validatePatch_iff hm hord).1 h
  rw [Fields.readAs_obj value hout.ordered, validatePatch_iff hm (Fields.readAs_ordered hout.ordered)]
  have hsplit : (∃ out', Json.obj out = .obj out' ∧ Collects (·.1) (patchValue P S m)
    (Fields.readAs value out) out') ↔
      Collects (·.1) (patchValue P S m) (Fields.readAs value out) out := by
    simp
  -- the entries returned are the entries read, one for each name
  have hback : Collects (·.1) (patchValue P S m) (Fields.readAs value out) out ↔
      Collects (·.1) (fun e => patchValue P S m (e.1, ((Fields.get out e.1).getD .null).readAs value)) input out := by
    have hto : ∀ e ∈ Fields.readAs value out, ∃ x ∈ input, x.1 = e.1 ∧
        patchValue P S m (x.1, ((Fields.get out x.1).getD .null).readAs value) = patchValue P S m e := by
      intro e he
      obtain ⟨w, hw, hval⟩ := Fields.mem_readAs.1 he
      obtain ⟨x, hx, hname⟩ := hout.only _ hw
      refine ⟨x, hx, hname, ?_⟩
      rw [hname, hout.ordered.get_of_mem hw, Option.getD_some, ← hval]
    have hfrom : ∀ x ∈ input, ∃ e ∈ Fields.readAs value out, e.1 = x.1 := by
      intro x hx
      obtain ⟨w, -, hget⟩ := hout.value x hx
      exact ⟨(x.1, w.readAs value), Fields.mem_readAs.2 ⟨w, Fields.mem_of_get hget, rfl⟩, rfl⟩
    constructor
    · intro hc
      refine hc.congr (fun e he => ?_) fun x hx => ?_
      · obtain ⟨x, hx, hname, -⟩ := hto e he
        exact ⟨x, hx, hname⟩
      · obtain ⟨e, he, hname⟩ := hfrom x hx
        obtain ⟨x', hx', hname', hval⟩ := hto e he
        cases List.inj_on_of_nodup_map hord.names_nodup hx' hx (hname'.trans hname)
        exact ⟨e, he, hname, hval.symm⟩
    · intro hc
      exact hc.congr hfrom hto
  rw [hsplit, hback, hout.again, Json.fields_obj, fieldsKept_iff hn hord]
  refine forall₂_congr fun e he => ?_
  obtain ⟨u, hu, hget⟩ := hout.value e he
  rw [hu, hget]
  simp only [Except.ok.injEq, forall_eq', Option.getD_some]
  exact patchValue_again C hint hv he hu

end

end Axton
