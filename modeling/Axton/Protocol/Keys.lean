import Axton.Core.Fixpoint
import Axton.Protocol.Sync
import Mathlib.Data.List.TakeWhile

/-!
# Texts of keys

A record key has two texts: the core crate writes `[model, identity]` (`schema.rs:160`), the sync crate
the object `{"identity", "model"}` of a valid key (`sync.rs:127`). Both are canonical JSON. The keys that
`record_key` returns have normalized identities: an integer field holds an integer and a float field a
double, so that the form of a number is no longer free and either text tells keys apart.

Texts tell values apart because of how numbers are printed (`Rfc8785`). Whether a text parses back is a matter of
how they are read: `serde_json` may take one for its neighbour (`canonical_json_drifts`).
-/

namespace Axton

/-- `RecordKey::encoded` of the core crate. -/
def RecordKey.coreEncoded (number : Rat → String) (k : RecordKey) : String :=
  canonicalJson number (.arr [.str k.model, k.identity])

/-- `RecordKey::encoded` of the sync crate. -/
def RecordKey.syncEncoded (number : Rat → String) (k : RecordKey) : Except String String := do
  k.validate
  return canonicalJson number (.obj [("identity", k.identity), ("model", .str k.model)])

/-- The text a plan orders by is the key's object, printed. -/
theorem RecordKey.syncEncoded_eq {P : Platform} {number : Rat → String} (htext : P.canonicalJson = canonicalJson number)
    {k : RecordKey} (hk : k.validate = .ok ()) : k.syncEncoded number = .ok (k.syncText P) := by
  refine bind_ok.2 ⟨(), hk, pure_ok.2 (String.toList_injective ?_)⟩
  have hordered : (canonicalEntries number [("identity", k.identity), ("model", .str k.model)]).insertionSort beforeUtf16 =
      [("identity", canonicalText number k.identity), ("model", (quote k.model).toList)] := by
    refine List.Pairwise.insertionSort_eq (List.pairwise_pair.2 ?_)
    exact (by decide : encodeUtf16 "identity" ≤ encodeUtf16 "model")
  have hident : (quote "identity").toList = "\"identity\"".toList := by decide +kernel
  have hmodel : (quote "model").toList = "\"model\"".toList := by decide +kernel
  unfold syncText
  rw [htext, canonicalJson, String.toList_ofList, canonicalText, hordered]
  simp [canonicalJson, commas, writeEntry, hident, hmodel]

/-- A key that `record_key` returns for an identity whose numbers `serde_json` can hold. -/
def CanonicalKey (P : Platform) (S : Schema) (k : RecordKey) : Prop :=
  ∃ input : Fields, (∀ e ∈ input, ∀ n, e.2 = .num n → n.Held) ∧ S.recordKey P k.model (.obj input) = .ok k

/-! ## Normalized scalars -/

/-- Within one type the form of a number is fixed. -/
theorem scalar_same {P : Platform} {ty : ScalarType} {v v' w w' : Json} (h : scalar P ty v = .ok w)
    (h' : scalar P ty v' = .ok w') (hsame : w.Same w') : w = w' := by
  unfold Json.Same at hsame
  rcases scalar_result h with ⟨s, rfl⟩ | ⟨b, rfl⟩ | ⟨hty, z, hz, rfl⟩ | ⟨hty, n, rfl, rfl⟩ <;>
    rcases scalar_result h' with ⟨s', rfl⟩ | ⟨b', rfl⟩ | ⟨hty', z', hz', rfl⟩ | ⟨hty', n', rfl, rfl⟩ <;>
    simp_all [Json.normal, ofInt_asF64, asF64_float]

/-! ## Canonical keys -/

/-- The entries of a canonical identity are normalized scalars of the fields' types. -/
structure IdentityOf (P : Platform) (m : ModelDescriptor) (out : Fields) : Prop where
  ordered : out.Ordered
  entry : ∀ e ∈ out, ∃ f ty v, m.field e.1 = some f ∧ f.valueType = .scalar ty ∧ scalar P ty v = .ok e.2 ∧
    ∀ n, v = .num n → n.Held

section
variable {P : Platform} {S : Schema} (hS : S.validate P = true)
include hS

theorem CanonicalKey.identityOf {k : RecordKey} (h : CanonicalKey P S k) :
    ∃ m out, S.model k.model = .ok m ∧ k.identity = .obj out ∧ IdentityOf P m out := by
  obtain ⟨input, hheld, hkey⟩ := h
  obtain ⟨m, -, -, hm, -⟩ := recordKey_ok.1 hkey
  have V := valid_model hS (mem_of_model hm).1
  obtain ⟨input', out, hinput, hk, -, -, hout⟩ := (recordKey_iff hm V.identity).1 hkey
  cases hinput
  rw [hk]
  refine ⟨m, out, hm, rfl, hout.ordered, fun e he => ?_⟩
  obtain ⟨n, hn, rfl⟩ := hout.only e he
  obtain ⟨w, hw, hget⟩ := hout.value _ hn
  rw [hout.ordered.get_of_mem he, Option.some.injEq] at hget
  subst hget
  have hnamed := V.named _ hn
  unfold Schema.validIdentity at hnamed
  unfold identityValue at hw
  cases hf : m.field e.1 with
  | none => simp [hf] at hnamed
  | some f =>
    simp only [hf, Bool.and_eq_true, Bool.not_eq_true'] at hnamed hw
    cases hg : Fields.get input e.1 with
    | none => simp [hg] at hw
    | some v =>
      simp only [hg] at hw
      unfold normalizeValue at hw
      split at hw
      · rw [if_neg (by simp [hnamed.1])] at hw
        cases hw
      · cases hty : f.valueType with
        | scalar ty =>
          rw [hty] at hw
          exact ⟨f, ty, v, rfl, hty, hw, hheld _ (Fields.mem_of_get hg)⟩
        | enum name => simp [hty] at hnamed
        | list element => simp [hty] at hnamed

theorem CanonicalKey.safe {k : RecordKey} (h : CanonicalKey P S k) : k.identity.Safe := by
  obtain ⟨m, out, -, hid, hout⟩ := h.identityOf hS
  rw [hid, Json.safe_obj]
  refine ⟨hout.ordered.names_nodup, fun e he => ?_⟩
  obtain ⟨f, ty, v, -, -, hw, hheld⟩ := hout.entry e he
  exact scalar_safe hw hheld

/-- The same identity up to the form of numbers is the same identity. -/
theorem CanonicalKey.eq_of_same {k k' : RecordKey} (h : CanonicalKey P S k) (h' : CanonicalKey P S k')
    (hmodel : k.model = k'.model) (hsame : k.identity.Same k'.identity) : k = k' := by
  obtain ⟨m, out, hm, hid, hout⟩ := h.identityOf hS
  obtain ⟨m', out', hm', hid', hout'⟩ := h'.identityOf hS
  rw [← hmodel, hm, Except.ok.injEq] at hm'
  subst hm'
  have hnormal : (Json.obj out).normal = (Json.obj out').normal := by
    rw [hid, hid'] at hsame
    exact hsame
  simp only [Json.normal, Json.normalEntries_eq, Json.obj.injEq] at hnormal
  have hnames (fs : Fields) (ho : fs.Ordered) : ((fs.map fun e => (e.1, e.2.normal)).map (·.1)).Nodup := by
    rw [List.map_map]
    exact ho.names_nodup
  have hperm : (out.map fun e => (e.1, e.2.normal)).Perm (out'.map fun e => (e.1, e.2.normal)) :=
    (Fields.extend_perm (hnames out hout.ordered)).symm.trans
      ((List.Perm.of_eq hnormal).trans (Fields.extend_perm (hnames out' hout'.ordered)))
  -- an entry of one identity is an entry of the other
  have hentry {a b : Fields} (ha : IdentityOf P m a) (hb : IdentityOf P m b)
      (hab : (a.map fun e => (e.1, e.2.normal)).Perm (b.map fun e => (e.1, e.2.normal))) {e : String × Json} (he : e ∈ a) :
      Fields.get b e.1 = some e.2 := by
    obtain ⟨e', he', heq⟩ := List.mem_map.1 (hab.subset (List.mem_map.2 ⟨e, he, rfl⟩))
    rw [Prod.mk.injEq] at heq
    obtain ⟨f, ty, v, hf, hty, hw, -⟩ := ha.entry e he
    obtain ⟨f', ty', v', hf', hty', hw', -⟩ := hb.entry e' he'
    rw [heq.1, hf, Option.some.injEq] at hf'
    subst hf'
    rw [hty, ValueType.scalar.injEq] at hty'
    subst hty'
    rw [← heq.1, ← scalar_same hw' hw heq.2]
    exact hb.ordered.get_of_mem he'
  have hfields : out = out' := by
    refine hout.ordered.ext_get hout'.ordered fun x => ?_
    cases hx : Fields.get out x with
    | some v => exact (hentry hout hout' hperm (Fields.mem_of_get hx)).symm
    | none =>
      cases hx' : Fields.get out' x with
      | none => rfl
      | some v =>
        have hback := hentry hout' hout hperm.symm (Fields.mem_of_get hx')
        rw [hx] at hback
        cases hback
  cases k
  cases k'
  simp only at hmodel hid hid'
  rw [hmodel, hid, hid', hfields]

end

/-! ## Both texts -/

theorem same_pair {m m' : String} {a b : Json} :
    (Json.arr [.str m, a]).Same (.arr [.str m', b]) ↔ m = m' ∧ a.Same b := by
  simp [Json.Same, Json.normal, Json.normalItems]

theorem same_entries {m m' : String} {a b : Json} :
    (Json.obj [("identity", a), ("model", .str m)]).Same (.obj [("identity", b), ("model", .str m')]) ↔ m = m' ∧ a.Same b := by
  have hkeys : ¬ "identity" = "model" ∧ ¬ "model" < "identity" := by decide
  simp [Json.Same, Json.normal, Json.normalEntries, Fields.extend, Fields.insert, hkeys, and_comm]

theorem safe_pair {m : String} {a : Json} (h : a.Safe) : (Json.arr [.str m, a]).Safe := by
  simp [Json.Safe, Json.SafeItems, h]

theorem safe_entries {m : String} {a : Json} (h : a.Safe) : (Json.obj [("identity", a), ("model", .str m)]).Safe := by
  simp [Json.Safe, Json.SafeEntries, h]

/-- **Canonical JSON is a canonical form.** Two values have one text exactly when they are equal up to the
order of entries and the form of numbers; whatever a reader makes of the texts of numbers, the text parses back
to the value with each number as it is read, which is the value in that sense exactly when the reader takes
each of its numbers for itself; and both texts of canonical keys tell those keys apart. -/
theorem canonical_json_canonical {number : Rat → String} (R : Rfc8785 number) :
    (∀ a b : Json, a.Safe → b.Safe → (canonicalJson number a = canonicalJson number b ↔ a.Same b)) ∧
      (∀ (read : String → Option Num) (value : Rat → Rat), Tokens number read value → ∀ a : Json, a.Safe →
        ∃ w, parseJson read (canonicalJson number a) = some w ∧ w.normal = a.readAs value ∧ (w.Same a ↔ a.Kept value)) ∧
      ∀ (P : Platform) (S : Schema), S.validate P = true → ∀ k k', CanonicalKey P S k → CanonicalKey P S k' →
        (k.coreEncoded number = k'.coreEncoded number ↔ k = k') ∧
          ∀ t t', k.syncEncoded number = .ok t → k'.syncEncoded number = .ok t' →
            (t = t' ↔ k = k') ∧ (t = t' ↔ k.coreEncoded number = k'.coreEncoded number) := by
  refine ⟨fun a b ha hb => canonicalJson_inj R ha hb, fun read value T a ha => parseJson_canonical T ha,
    fun P S hS k k' hk hk' => ?_⟩
  have hsafe := hk.safe hS
  have hsafe' := hk'.safe hS
  have hcore : k.coreEncoded number = k'.coreEncoded number ↔ k = k' := by
    constructor
    · intro h
      obtain ⟨hmodel, hid⟩ := same_pair.1 ((canonicalJson_inj R (safe_pair hsafe) (safe_pair hsafe')).1 h)
      exact hk.eq_of_same hS hk' hmodel hid
    · rintro rfl
      rfl
  refine ⟨hcore, fun t t' ht ht' => ?_⟩
  simp only [RecordKey.syncEncoded, bind_ok, pure_ok] at ht ht'
  obtain ⟨_, -, rfl⟩ := ht
  obtain ⟨_, -, rfl⟩ := ht'
  have hsync : canonicalJson number (.obj [("identity", k.identity), ("model", .str k.model)]) =
      canonicalJson number (.obj [("identity", k'.identity), ("model", .str k'.model)]) ↔ k = k' := by
    constructor
    · intro h
      obtain ⟨hmodel, hid⟩ := same_entries.1 ((canonicalJson_inj R (safe_entries hsafe) (safe_entries hsafe')).1 h)
      exact hk.eq_of_same hS hk' hmodel hid
    · rintro rfl
      rfl
  exact ⟨hsync, hsync.trans hcore.symm⟩

/-! ## A printer of numbers

Integers are shown by their digits, every other number by its numerator and denominator. -/

namespace Exact

def intText (z : Int) : List Char := if z < 0 then '-' :: Nat.toDigits 10 z.natAbs else Nat.toDigits 10 z.natAbs

def text (q : Rat) : List Char := if q.den = 1 then intText q.num else intText q.num ++ 'e' :: Nat.toDigits 10 q.den

def number (q : Rat) : String := String.ofList (text q)

def readInt : List Char → Int
  | [] => 0
  | c :: cs => if c = '-' then -(Nat.ofDigitChars 10 cs 0 : Int) else Nat.ofDigitChars 10 (c :: cs) 0

def readText (cs : List Char) : Rat :=
  match (cs.dropWhile (· ≠ 'e')).drop 1 with
  | [] => readInt (cs.takeWhile (· ≠ 'e'))
  | ds => mkRat (readInt (cs.takeWhile (· ≠ 'e'))) (Nat.ofDigitChars 10 ds 0)

def read (s : String) : Option Num := some (.float (readText s.toList))

theorem digits_char {n : Nat} {c : Char} (h : c ∈ Nat.toDigits 10 n) : c.isDigit = true :=
  Nat.isDigit_of_mem_toDigits (by decide) (by decide) h

theorem readInt_intText (z : Int) : readInt (intText z) = z := by
  unfold intText
  by_cases hz : z < 0
  · rw [if_pos hz, readInt, if_pos rfl, Nat.ofDigitChars_ten_toDigits]
    omega
  · rw [if_neg hz]
    cases hd : Nat.toDigits 10 z.natAbs with
    | nil => exact absurd hd Nat.toDigits_ne_nil
    | cons c cs =>
      have hc : c ≠ '-' := by
        rintro rfl
        have hdigit := digits_char (hd ▸ List.mem_cons_self : '-' ∈ Nat.toDigits 10 z.natAbs)
        revert hdigit
        decide
      rw [readInt, if_neg hc, ← hd, Nat.ofDigitChars_ten_toDigits]
      omega

theorem intText_char {z : Int} {c : Char} (h : c ∈ intText z) : c = '-' ∨ c.isDigit = true := by
  unfold intText at h
  split at h
  · rcases List.mem_cons.1 h with h | h
    · exact .inl h
    · exact .inr (digits_char h)
  · exact .inr (digits_char h)

theorem intText_no_exponent {z : Int} : ∀ c ∈ intText z, decide (c ≠ 'e') = true := by
  intro c hc
  rw [decide_eq_true_eq]
  rintro rfl
  rcases intText_char hc with h | h <;> revert h <;> decide

theorem readText_text (q : Rat) : readText (text q) = q := by
  unfold text
  by_cases hden : q.den = 1
  · have htake : (intText q.num).takeWhile (· ≠ 'e') = intText q.num := List.takeWhile_eq_self_iff.2 intText_no_exponent
    have hdrop : (intText q.num).dropWhile (· ≠ 'e') = [] := List.dropWhile_eq_nil_iff.2 intText_no_exponent
    rw [if_pos hden, readText, hdrop, htake]
    simp only [List.drop_nil, readInt_intText]
    exact Rat.den_eq_one_iff q |>.1 hden
  · have htake : (intText q.num ++ 'e' :: Nat.toDigits 10 q.den).takeWhile (· ≠ 'e') = intText q.num := by
      rw [List.takeWhile_append_of_pos intText_no_exponent]
      simp
    have hdrop : (intText q.num ++ 'e' :: Nat.toDigits 10 q.den).dropWhile (· ≠ 'e') = 'e' :: Nat.toDigits 10 q.den := by
      rw [List.dropWhile_append_of_pos intText_no_exponent]
      simp
    rw [if_neg hden, readText, hdrop, htake]
    cases hd : Nat.toDigits 10 q.den with
    | nil => exact absurd hd Nat.toDigits_ne_nil
    | cons c cs =>
      show mkRat (readInt (intText q.num)) (Nat.ofDigitChars 10 (c :: cs) 0) = q
      rw [← hd, Nat.ofDigitChars_ten_toDigits, readInt_intText, Rat.mkRat_self]

theorem text_char {q : Rat} {c : Char} (h : c ∈ text q) : c = '-' ∨ c = 'e' ∨ c.isDigit = true := by
  have hint {z : Int} (h : c ∈ intText z) : c = '-' ∨ c = 'e' ∨ c.isDigit = true := (intText_char h).imp_right .inr
  unfold text at h
  split at h
  · exact hint h
  · rcases List.mem_append.1 h with h | h
    · exact hint h
    · exact .inr ((List.mem_cons.1 h).imp_right digits_char)

theorem tokens : Tokens number read id := by
  refine ⟨fun q _ => ?_, fun q _ c hc => ?_, fun q _ => ⟨_, rfl, ?_⟩⟩
  · have hint : intText q.num ≠ [] := by
      unfold intText
      split
      · simp
      · exact Nat.toDigits_ne_nil
    unfold number text
    rw [String.toList_ofList]
    split
    · exact hint
    · simp
  · rw [number, String.toList_ofList] at hc
    rcases text_char hc with rfl | rfl | hc
    · rfl
    · rfl
    · simp [numberChar, hc]
  · show readText (number q).toList = q
    rw [number, String.toList_ofList, readText_text]

theorem rfc8785 : Rfc8785 number where
  nonempty := tokens.nonempty
  chars := tokens.chars
  inj q q' _ _ h := by
    rw [← readText_text q, ← readText_text q', String.ofList_injective h]

end Exact

/-- An object has one text with its entries in either order and its numbers in either form, which parses back. -/
theorem canonical_json_canonical_entries :
    canonicalJson Exact.number (.obj [("b", .num (.posInt 2)), ("a", .str "\n")]) =
        canonicalJson Exact.number (.obj [("a", .str "\n"), ("b", .num (.float 2))]) ∧
      ∃ w, parseJson Exact.read (canonicalJson Exact.number (.arr [.num (.posInt 7), .null])) = some w ∧
        w.Same (.arr [.num (.posInt 7), .null]) := by
  have htwo : IsF64 2 := ⟨2, 0, by decide, by decide, by decide, by norm_num⟩
  have hseven : (Json.arr [.num (.posInt 7), .null]).Safe := by
    simp [Json.Safe, Json.SafeItems, Num.Safe, maxSafeInteger]
  have hreads := (canonical_json_canonical Exact.rfc8785).2.1 Exact.read id Exact.tokens _ hseven
  obtain ⟨w, hw, -, hsame⟩ := hreads
  refine ⟨((canonical_json_canonical Exact.rfc8785).1 _ _ ?_ ?_).2 ?_, w, hw, hsame.2 ?_⟩
  · simp [Json.Safe, Json.SafeEntries, Num.Safe, maxSafeInteger]
  · simp [Json.Safe, Json.SafeEntries, Num.Safe, htwo]
  · show Json.normal _ = Json.normal _
    decide +kernel
  · exact Json.kept_arr.2 (by simp [Json.Kept])

/-! ## A number that does not read back

One double has the text that `serde_jcs` prints for it, and its text is read as `serde_json` reads it. -/

namespace Drift

/-- The double that is printed `94.95886283158103`. -/
def score : Rat := 1670533981499353 / 17592186044416

def text : String := "94.95886283158103"

def number (q : Rat) : String := if q = score then text else Exact.number q

/-- The double that the digits and the exponent of a text make. -/
def value (q : Rat) : Rat := if q = score then fromParts 9495886283158103 (-14) else q

def read (s : String) : Option Num := if s = text then some (.float (fromParts 9495886283158103 (-14))) else Exact.read s

theorem number_ne (q : Rat) : Exact.number q ≠ text := by
  intro h
  have hpoint : '.' ∈ (Exact.number q).toList := by
    rw [h]
    decide
  rw [Exact.number, String.toList_ofList] at hpoint
  rcases Exact.text_char hpoint with h | h | h <;> revert h <;> decide

theorem tokens : Tokens number read value := by
  refine ⟨fun q hq => ?_, fun q hq => ?_, fun q hq => ?_⟩
  · unfold number
    split
    · decide
    · exact Exact.tokens.nonempty q hq
  · unfold number
    split
    · exact List.all_eq_true.1 (by decide)
    · exact Exact.tokens.chars q hq
  · unfold number value
    split
    · exact ⟨_, if_pos rfl, rfl⟩
    · rw [read, if_neg (number_ne q)]
      exact Exact.tokens.reads q hq

theorem rfc8785 : Rfc8785 number where
  nonempty := tokens.nonempty
  chars := tokens.chars
  inj q q' hq hq' h := by
    unfold number at h
    split at h <;> split at h
    · rename_i hs hs'
      rw [hs, hs']
    · exact absurd h.symm (number_ne q')
    · exact absurd h (number_ne q)
    · exact Exact.rfc8785.inj q q' hq hq' h

theorem isF64_score : IsF64 score := ⟨1670533981499353, -44, by decide, by decide, by decide, by norm_num [score]⟩

end Drift

/-- **What is parsed can be another value.** A score has one text, of the shortest digits that stand for it, and
reads as its neighbour. -/
theorem canonical_json_drifts : Rfc8785 Drift.number ∧ Tokens Drift.number Drift.read Drift.value ∧
    shortest Drift.score = some (9495886283158103, -14) ∧
    (Json.num (.float Drift.score)).Safe ∧
    canonicalJson Drift.number (.num (.float Drift.score)) = "94.95886283158103" ∧
    parseJson Drift.read "94.95886283158103" = some (.num (.float (6682135925997413 / 70368744177664))) ∧
    ¬ (Json.num (.float (6682135925997413 / 70368744177664))).Same (.num (.float Drift.score)) := by
  refine ⟨Drift.rfc8785, Drift.tokens, by decide +kernel, Drift.isF64_score, by decide +kernel, by decide +kernel, ?_⟩
  show ¬ Json.normal _ = Json.normal _
  decide +kernel

end Axton
