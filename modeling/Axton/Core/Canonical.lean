import Axton.Core.Objects
import Mathlib.Data.List.Lex
import Mathlib.Data.List.Sort

/-!
# Canonical JSON text

Model of `canonical_json` (`crates/core/src/lib.rs:24`): objects and arrays are written by its own
recursion, with the entries of an object sorted by the UTF-16 code units of their keys; keys and scalars
are written by the two JSON libraries. Both escape strings alike (`quote`); numbers are the doubles they
stand for, in a text that is taken as given.

Two values that differ only in the order of entries and in how a number is held have one text. `normal`
picks one value of each such class: entries in map order, every number a double.
-/

namespace Axton

/-! ## UTF-16 order -/

/-- The code units of a character (`char::encode_utf16`). -/
def utf16Units (c : Char) : List Nat :=
  if c.toNat < 0x10000 then [c.toNat]
  else [0xD800 + (c.toNat - 0x10000) / 0x400, 0xDC00 + (c.toNat - 0x10000) % 0x400]

def encodeUtf16 (s : String) : List Nat := s.toList.flatMap utf16Units

/-- The order of the entries of an object (lib.rs:30). -/
def beforeUtf16 {α : Type} (a b : String × α) : Prop := encodeUtf16 a.1 ≤ encodeUtf16 b.1

instance {α : Type} : DecidableRel (beforeUtf16 (α := α)) := fun a b =>
  inferInstanceAs (Decidable (encodeUtf16 a.1 ≤ encodeUtf16 b.1))

instance {α : Type} : Std.Total (beforeUtf16 (α := α)) := ⟨fun a b => le_total (encodeUtf16 a.1) (encodeUtf16 b.1)⟩

instance {α : Type} : IsTrans (String × α) beforeUtf16 := ⟨fun _ _ _ h h' => le_trans h h'⟩

/-! ## The text -/

/-- Texts with commas between them. -/
def commas : List (List Char) → List Char
  | [] => []
  | [x] => x
  | x :: xs => x ++ ',' :: commas xs

def writeEntry (e : String × List Char) : List Char := (quote e.1).toList ++ ':' :: e.2

mutual
/-- `write` (lib.rs:25); `number` is the text of a double. -/
def canonicalText (number : Rat → String) : Json → List Char
  | .null => "null".toList
  | .bool b => if b then "true".toList else "false".toList
  | .num n => (number n.asF64).toList
  | .str s => (quote s).toList
  | .arr xs => '[' :: commas (canonicalItems number xs) ++ [']']
  | .obj fs => '\x7b' :: commas (((canonicalEntries number fs).insertionSort beforeUtf16).map writeEntry) ++ ['\x7d']
def canonicalItems (number : Rat → String) : List Json → List (List Char)
  | [] => []
  | x :: xs => canonicalText number x :: canonicalItems number xs
def canonicalEntries (number : Rat → String) : Fields → List (String × List Char)
  | [] => []
  | (k, v) :: fs => (k, canonicalText number v) :: canonicalEntries number fs
end

/-- `canonical_json` (lib.rs:24). -/
def canonicalJson (number : Rat → String) (v : Json) : String := String.ofList (canonicalText number v)

/-! ## Values up to entry order and number form -/

mutual
/-- Entries in map order, and every number the double it stands for. -/
def Json.normal : Json → Json
  | .num n => .num (.float n.asF64)
  | .arr xs => .arr (normalItems xs)
  | .obj fs => .obj (Fields.extend [] (normalEntries fs))
  | v => v
def Json.normalItems : List Json → List Json
  | [] => []
  | x :: xs => x.normal :: normalItems xs
def Json.normalEntries : Fields → Fields
  | [] => []
  | (k, v) :: fs => (k, v.normal) :: normalEntries fs
end

/-- Equal up to the order of entries and the form of numbers. -/
def Json.Same (a b : Json) : Prop := a.normal = b.normal

/-- `q` is a finite double. -/
def IsF64 (q : Rat) : Prop := ∃ m e : Int, m.natAbs < 2 ^ 53 ∧ -1074 ≤ e ∧ e ≤ 971 ∧ q = m * (2 : Rat) ^ e

/-- A finite number, an integer within the safe range. -/
def Num.Safe : Num → Prop
  | .posInt n => n ≤ maxSafeInteger
  | .negInt n => n + 1 ≤ maxSafeInteger
  | .float q => IsF64 q

mutual
/-- Numbers are safe, and an object holds each key once. -/
def Json.Safe : Json → Prop
  | .num n => n.Safe
  | .arr xs => SafeItems xs
  | .obj fs => (fs.map (·.1)).Nodup ∧ SafeEntries fs
  | _ => True
def Json.SafeItems : List Json → Prop
  | [] => True
  | x :: xs => x.Safe ∧ SafeItems xs
def Json.SafeEntries : Fields → Prop
  | [] => True
  | e :: fs => e.2.Safe ∧ SafeEntries fs
end

/-! ## Induction over values -/

/-- What holds of the members of a value passes to it. -/
theorem Json.members_induction {motive : Json → Prop} (null : motive .null) (bool : ∀ b, motive (.bool b))
    (num : ∀ n, motive (.num n)) (str : ∀ s, motive (.str s)) (arr : ∀ xs, (∀ x ∈ xs, motive x) → motive (.arr xs))
    (obj : ∀ fs : Fields, (∀ e ∈ fs, motive e.2) → motive (.obj fs)) (v : Json) : motive v := by
  refine @Json.rec motive (fun xs => ∀ x ∈ xs, motive x) (fun fs => ∀ e ∈ fs, motive e.2) (fun e => motive e.2)
    null bool num str arr obj ?_ ?_ ?_ ?_ ?_ v
  · intro x hx
    cases hx
  · intro x xs hx hxs y hy
    rcases List.mem_cons.1 hy with rfl | hy
    · exact hx
    · exact hxs y hy
  · intro e he
    cases he
  · intro e fs he hfs e' he'
    rcases List.mem_cons.1 he' with rfl | he'
    · exact he
    · exact hfs e' he'
  · intro k v hv
    exact hv

theorem canonicalItems_eq (number : Rat → String) (xs : List Json) : canonicalItems number xs = xs.map (canonicalText number) := by
  induction xs with
  | nil => rfl
  | cons x xs ih => simp [canonicalItems, ih]

theorem canonicalEntries_eq (number : Rat → String) (fs : Fields) :
    canonicalEntries number fs = fs.map fun e => (e.1, canonicalText number e.2) := by
  induction fs with
  | nil => rfl
  | cons e fs ih => simp [canonicalEntries, ih]

theorem Json.normalItems_eq (xs : List Json) : normalItems xs = xs.map normal := by
  induction xs with
  | nil => rfl
  | cons x xs ih => simp [normalItems, ih]

theorem Json.normalEntries_eq (fs : Fields) : normalEntries fs = fs.map fun e => (e.1, e.2.normal) := by
  induction fs with
  | nil => rfl
  | cons e fs ih => simp [normalEntries, ih]

theorem Json.safe_arr {xs : List Json} : (Json.arr xs).Safe ↔ ∀ x ∈ xs, x.Safe := by
  have hitems : SafeItems xs ↔ ∀ x ∈ xs, x.Safe := by
    induction xs with
    | nil => simp [SafeItems]
    | cons x xs ih => simp [SafeItems, ih]
  rw [Safe, hitems]

theorem Json.safe_obj {fs : Fields} : (Json.obj fs).Safe ↔ (fs.map (·.1)).Nodup ∧ ∀ e ∈ fs, e.2.Safe := by
  have hentries : SafeEntries fs ↔ ∀ e ∈ fs, e.2.Safe := by
    induction fs with
    | nil => simp [SafeEntries]
    | cons e fs ih => simp [SafeEntries, ih]
  rw [Safe, hentries]

/-! ## Sorted entries -/

theorem utf16Units_ne_nil (c : Char) : utf16Units c ≠ [] := by
  unfold utf16Units
  split <;> simp

/-- Surrogates stand for no character of their own. -/
theorem Char.not_surrogate (c : Char) : c.toNat < 0xD800 ∨ 0xDFFF < c.toNat := by
  have hvalid : c.toNat.isValidChar := c.valid
  unfold Nat.isValidChar at hvalid
  omega

theorem utf16Units_append_inj {c d : Char} {x y : List Nat} (h : utf16Units c ++ x = utf16Units d ++ y) : c = d ∧ x = y := by
  have hc := Char.not_surrogate c
  have hd := Char.not_surrogate d
  have hsame : c.toNat = d.toNat → c = d := fun hcd => Char.toNat_inj.1 hcd
  have hvc : c.toNat.isValidChar := c.valid
  have hvd : d.toNat.isValidChar := d.valid
  unfold Nat.isValidChar at hvc hvd
  unfold utf16Units at h
  by_cases hbc : c.toNat < 0x10000 <;> by_cases hbd : d.toNat < 0x10000
  · rw [if_pos hbc, if_pos hbd] at h
    simp only [List.cons_append, List.nil_append, List.cons.injEq] at h
    exact ⟨hsame h.1, h.2⟩
  · rw [if_pos hbc, if_neg hbd] at h
    simp only [List.cons_append, List.nil_append, List.cons.injEq] at h
    omega
  · rw [if_neg hbc, if_pos hbd] at h
    simp only [List.cons_append, List.nil_append, List.cons.injEq] at h
    omega
  · rw [if_neg hbc, if_neg hbd] at h
    simp only [List.cons_append, List.nil_append, List.cons.injEq] at h
    exact ⟨hsame (by omega), h.2.2⟩

theorem encodeUtf16_inj {a b : String} (h : encodeUtf16 a = encodeUtf16 b) : a = b := by
  have hlists : ∀ x y : List Char, x.flatMap utf16Units = y.flatMap utf16Units → x = y := by
    intro x
    induction x with
    | nil =>
      intro y hy
      cases y with
      | nil => rfl
      | cons d y =>
        rw [List.flatMap_nil, List.flatMap_cons] at hy
        exact absurd (List.append_eq_nil_iff.1 hy.symm).1 (utf16Units_ne_nil d)
    | cons c x ih =>
      intro y hy
      cases y with
      | nil =>
        rw [List.flatMap_nil, List.flatMap_cons] at hy
        exact absurd (List.append_eq_nil_iff.1 hy).1 (utf16Units_ne_nil c)
      | cons d y =>
        rw [List.flatMap_cons, List.flatMap_cons] at hy
        obtain ⟨rfl, hxy⟩ := utf16Units_append_inj hy
        rw [ih y hxy]
  exact String.toList_injective (hlists _ _ h)

/-- The sorted entries do not depend on the order they had. -/
theorem insertionSort_of_perm {α : Type} {es es' : List (String × α)} (h : es.Perm es') (hn : (es.map (·.1)).Nodup) :
    es.insertionSort beforeUtf16 = es'.insertionSort beforeUtf16 := by
  refine List.Perm.eq_of_pairwise (fun a b ha hb hab hba => ?_) (List.pairwise_insertionSort beforeUtf16 es)
    (List.pairwise_insertionSort beforeUtf16 es') ?_
  · have hkey : a.1 = b.1 := encodeUtf16_inj (le_antisymm hab hba)
    have ha : a ∈ es := (List.mem_insertionSort _).1 ha
    have hb : b ∈ es := h.symm.subset ((List.mem_insertionSort _).1 hb)
    exact List.inj_on_of_nodup_map hn ha hb hkey
  · exact (List.perm_insertionSort _ es).trans (h.trans (List.perm_insertionSort _ es').symm)

/-! ## One text for the same value -/

namespace Fields

/-- A map built from distinct entries holds those entries. -/
theorem extend_perm {es : Fields} (hn : (es.map (·.1)).Nodup) : (extend [] es).Perm es := by
  have hordered : (extend [] es).Ordered := extend_ordered .nil es
  refine (List.perm_ext_iff_of_nodup hordered.names_nodup.of_map hn.of_map).2 fun e => ?_
  constructor
  · intro he
    rcases mem_extend he with he | he
    · exact he
    · cases he
  · intro he
    rcases get_extend [] es e.1 with ⟨v, hv, hget⟩ | ⟨hno, -⟩
    · have hsame : (e.1, v) = e := List.inj_on_of_nodup_map hn hv he rfl
      exact hsame ▸ mem_of_get hget
    · exact absurd rfl (hno e he)

theorem extend_of_perm {es es' : Fields} (h : es.Perm es') (hn : (es.map (·.1)).Nodup) : extend [] es = extend [] es' := by
  have hn' : (es'.map (·.1)).Nodup := (h.map _).nodup_iff.1 hn
  have hperm := (extend_perm hn).trans (h.trans (extend_perm hn').symm)
  exact hperm.eq_of_pairwise (fun _ _ _ _ hab hba => absurd hba (lt_asymm hab)) (extend_ordered .nil es)
    (extend_ordered .nil es')

end Fields

theorem canonicalText_normal (number : Rat → String) (v : Json) (h : v.Safe) :
    canonicalText number v.normal = canonicalText number v := by
  induction v using Json.members_induction with
  | null => rfl
  | bool b => rfl
  | num n => rfl
  | str s => rfl
  | arr xs ih =>
    have hitems : (xs.map Json.normal).map (canonicalText number) = xs.map (canonicalText number) := by
      rw [List.map_map]
      exact List.map_congr_left fun x hx => ih x hx (Json.safe_arr.1 h x hx)
    simp only [Json.normal, canonicalText, Json.normalItems_eq, canonicalItems_eq, hitems]
  | obj fs ih =>
    obtain ⟨hn, hsafe⟩ := Json.safe_obj.1 h
    have hnames : ((fs.map fun e => (e.1, e.2.normal)).map (·.1)).Nodup := by
      rw [List.map_map]
      exact hn
    have hperm := (Fields.extend_perm hnames).map fun e : String × Json => (e.1, canonicalText number e.2)
    have htexts : (fs.map fun e => (e.1, e.2.normal)).map (fun e => (e.1, canonicalText number e.2)) =
        fs.map fun e => (e.1, canonicalText number e.2) := by
      rw [List.map_map]
      refine List.map_congr_left fun e he => ?_
      show (e.1, canonicalText number e.2.normal) = (e.1, canonicalText number e.2)
      rw [ih e he (hsafe e he)]
    rw [htexts] at hperm
    have hkeys : ((fs.map fun e => (e.1, canonicalText number e.2)).map (·.1)).Nodup := by
      rw [List.map_map]
      exact hn
    simp only [Json.normal, canonicalText, Json.normalEntries_eq, canonicalEntries_eq]
    rw [insertionSort_of_perm hperm.symm hkeys]

/-- The same value has one text. -/
theorem canonicalText_of_same (number : Rat → String) {a b : Json} (ha : a.Safe) (hb : b.Safe) (h : a.Same b) :
    canonicalText number a = canonicalText number b := by
  have hnormal : a.normal = b.normal := h
  rw [← canonicalText_normal number a ha, hnormal, canonicalText_normal number b hb]

end Axton
