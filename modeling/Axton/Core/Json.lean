import Mathlib.Algebra.Group.Int.Defs
import Mathlib.Algebra.GroupWithZero.Nat
import Mathlib.Data.Rat.Defs
import Mathlib.Data.List.Basic

/-!
# JSON values and the shared scalar checks

Model of `serde_json::Value` as the crates use it, of the text round trip a saved value goes
through, and of `crates/core/src/protocol.rs`.

| here | there |
|------|-------|
| `Num.posInt`, `negInt`, `float` | `serde_json::Number` (`u64`, negative `i64`, finite `f64`) |
| `Json.obj` | `serde_json::Map`, a `BTreeMap`: entries in key order |
| `Platform.reread` | `serde_json::from_str(canonical_json(v))` |
| `nonblank`, `counter`, `positive`, `validCode` | `text`, `counter`, `positive`, `valid_code` |

A finite `f64` is a rational, so `Num.float` carries one. `Num.negInt n` is the integer `-(n+1)`.
-/

namespace Axton

inductive Num where
  | posInt (n : Nat)
  | negInt (n : Nat)
  | float (q : Rat)
deriving DecidableEq, Repr

inductive Json where
  | null
  | bool (b : Bool)
  | num (n : Num)
  | str (s : String)
  | arr (xs : List Json)
  | obj (fields : List (String × Json))

/-- The entries of an object, in key order. -/
abbrev Fields := List (String × Json)

namespace Json

mutual
/-- `Value: PartialEq`. -/
def decEq : (a b : Json) → Decidable (a = b)
  | null, null => isTrue rfl
  | bool x, bool y => if h : x = y then isTrue (h ▸ rfl) else isFalse fun e => h (Json.bool.inj e)
  | num x, num y => if h : x = y then isTrue (h ▸ rfl) else isFalse fun e => h (Json.num.inj e)
  | str x, str y => if h : x = y then isTrue (h ▸ rfl) else isFalse fun e => h (Json.str.inj e)
  | arr x, arr y => match decEqArr x y with
    | isTrue h => isTrue (h ▸ rfl)
    | isFalse h => isFalse fun e => h (Json.arr.inj e)
  | obj x, obj y => match decEqObj x y with
    | isTrue h => isTrue (h ▸ rfl)
    | isFalse h => isFalse fun e => h (Json.obj.inj e)
  | null, bool _ | null, num _ | null, str _ | null, arr _ | null, obj _
  | bool _, null | bool _, num _ | bool _, str _ | bool _, arr _ | bool _, obj _
  | num _, null | num _, bool _ | num _, str _ | num _, arr _ | num _, obj _
  | str _, null | str _, bool _ | str _, num _ | str _, arr _ | str _, obj _
  | arr _, null | arr _, bool _ | arr _, num _ | arr _, str _ | arr _, obj _
  | obj _, null | obj _, bool _ | obj _, num _ | obj _, str _ | obj _, arr _ => isFalse nofun
def decEqArr : (a b : List Json) → Decidable (a = b)
  | [], [] => isTrue rfl
  | [], _ :: _ | _ :: _, [] => isFalse nofun
  | x :: xs, y :: ys => match decEq x y, decEqArr xs ys with
    | isTrue h, isTrue hs => isTrue (h ▸ hs ▸ rfl)
    | isFalse h, _ => isFalse fun e => h (List.cons.inj e).1
    | _, isFalse h => isFalse fun e => h (List.cons.inj e).2
def decEqObj : (a b : Fields) → Decidable (a = b)
  | [], [] => isTrue rfl
  | [], _ :: _ | _ :: _, [] => isFalse nofun
  | (k, x) :: xs, (j, y) :: ys => match decEq x y, decEqObj xs ys with
    | isTrue h, isTrue hs => if hk : k = j then isTrue (h ▸ hs ▸ hk ▸ rfl)
        else isFalse fun e => hk (Prod.mk.inj (List.cons.inj e).1).1
    | isFalse h, _ => isFalse fun e => h (Prod.mk.inj (List.cons.inj e).1).2
    | _, isFalse h => isFalse fun e => h (List.cons.inj e).2
end

instance : DecidableEq Json := decEq

def isNull : Json → Bool
  | null => true
  | _ => false

def asObject : Json → Option Fields
  | obj fs => some fs
  | _ => none

def asArray : Json → Option (List Json)
  | arr xs => some xs
  | _ => none

def asStr : Json → Option String
  | str s => some s
  | _ => none

end Json

/-! ## Object fields -/

namespace Fields

/-- `Map::get`. -/
def get : Fields → String → Option Json
  | [], _ => none
  | (k, v) :: fs, name => if k = name then some v else get fs name

def contains (fs : Fields) (name : String) : Bool := (get fs name).isSome

/-- `Map::insert`: replace the entry, or place it in key order. -/
def insert : Fields → String → Json → Fields
  | [], name, v => [(name, v)]
  | (k, w) :: fs, name, v =>
    if k = name then (name, v) :: fs
    else if name < k then (name, v) :: (k, w) :: fs
    else (k, w) :: insert fs name v

/-- `Map::remove`. -/
def remove (fs : Fields) (name : String) : Fields := fs.filter fun e => !decide (e.1 = name)

/-- `Map::extend`. -/
def extend (fs extra : Fields) : Fields := extra.foldl (fun acc e => insert acc e.1 e.2) fs

theorem get_insert (fs : Fields) (name other : String) (v : Json) :
    get (insert fs name v) other = if name = other then some v else get fs other := by
  induction fs with
  | nil => simp [insert, get]
  | cons e fs ih =>
    obtain ⟨k, w⟩ := e
    unfold insert
    by_cases hk : k = name
    · subst hk; by_cases ho : k = other <;> simp [get, ho]
    · simp only [hk, if_false]
      split
      · by_cases ho : name = other <;> simp [get, ho]
      · by_cases ho : k = other
        · subst ho; simp [get, Ne.symm hk]
        · simp [get, ho, ih]

end Fields

namespace Json

/-- `value.get(name)`: nothing unless the value is an object with that entry. -/
def field (v : Json) (name : String) : Option Json := v.asObject.bind (Fields.get · name)

/-- `value[name]`: a missing entry reads as null. -/
def index (v : Json) (name : String) : Json := (v.field name).getD null

end Json

/-! ## Numbers -/

/-- `n as f64`: the nearest double, ties to even. -/
def natToF64 (n : Nat) : Nat :=
  let e := n.log2 + 1 - 53
  let q := n / 2 ^ e
  let r := n % 2 ^ e
  if 2 * r < 2 ^ e then q * 2 ^ e
  else if 2 * r = 2 ^ e then (if q % 2 = 0 then q else q + 1) * 2 ^ e
  else (q + 1) * 2 ^ e

/-- `Value::as_f64` on a number. -/
def Num.asF64 : Num → Rat
  | .posInt n => natToF64 n
  | .negInt n => -(natToF64 (n + 1) : Rat)
  | .float q => q

/-- `Value::from(n as i64)`. -/
def Num.ofInt : Int → Num
  | .ofNat n => .posInt n
  | .negSucc n => .negInt n

def maxSafeInteger : Nat := 9007199254740991

/-! ## The platform -/

/-- What the model takes as given: numbers in text (`serde_jcs`, `serde_json`), zoned times (`chrono`) and
canonical text. -/
structure Platform where
  /-- How a number reads once it is printed. `serde_json` reads with one rounding for the digits and one for
  the power of ten, so that this may be another number, and another again the next time. -/
  rereadNum : Num → Num
  /-- `DateTime::parse_from_rfc3339` shown again by `to_rfc3339_opts(Millis, true)` in UTC. -/
  dateTime : String → Option String
  /-- `serde_jcs` text. -/
  canonicalJson : Json → String

mutual
/-- A value saved as canonical JSON text and parsed again. -/
def Platform.reread (P : Platform) : Json → Json
  | .num n => .num (P.rereadNum n)
  | .arr xs => .arr (P.rereadArr xs)
  | .obj fs => .obj (P.rereadObj fs)
  | v => v
def Platform.rereadArr (P : Platform) : List Json → List Json
  | [] => []
  | x :: xs => P.reread x :: P.rereadArr xs
def Platform.rereadObj (P : Platform) : Fields → Fields
  | [] => []
  | (k, v) :: fs => (k, P.reread v) :: P.rereadObj fs
end

/-! ## Canonical text of a string -/

private def hexChar (n : Nat) : Char := "0123456789abcdef".toList.getD n '0'

/-- A character inside a canonical JSON string. -/
def escapeChar (c : Char) : List Char :=
  if c = '"' then ['\\', '"']
  else if c = '\\' then ['\\', '\\']
  else if 32 ≤ c.toNat then [c]
  else if c.toNat = 8 then ['\\', 'b']
  else if c.toNat = 9 then ['\\', 't']
  else if c.toNat = 10 then ['\\', 'n']
  else if c.toNat = 12 then ['\\', 'f']
  else if c.toNat = 13 then ['\\', 'r']
  else ['\\', 'u', '0', '0', hexChar (c.toNat / 16), hexChar (c.toNat % 16)]

/-- The canonical text of a string (`serde_jcs`). -/
def quote (s : String) : String := String.ofList ('"' :: s.toList.flatMap escapeChar ++ ['"'])

/-- The characters that are escaped. -/
def escapedChars : List Char := '"' :: '\\' :: (List.range 32).map Char.ofNat

theorem escapeChar_cases (c : Char) : c ∈ escapedChars ∨ (escapeChar c = [c] ∧ c ≠ '"' ∧ c ≠ '\\') := by
  by_cases hq : c = '"'
  · exact .inl (by simp [escapedChars, hq])
  · by_cases hb : c = '\\'
    · exact .inl (by simp [escapedChars, hb])
    · by_cases hc : 32 ≤ c.toNat
      · exact .inr ⟨by simp [escapeChar, hq, hb, hc], hq, hb⟩
      · left
        have hof : Char.ofNat c.toNat = c := Char.ofNat_toNat c
        refine List.mem_cons_of_mem _ (List.mem_cons_of_mem _ (List.mem_map.2 ⟨c.toNat, ?_, hof⟩))
        simpa using hc

/-- Escaped characters start with a backslash, and none is a prefix of another. -/
theorem escapeChar_escaped : ∀ a ∈ escapedChars, (escapeChar a).head? = some '\\' ∧
    ∀ b ∈ escapedChars, escapeChar a <+: escapeChar b → a = b := by
  have table : (escapedChars.all fun a => (escapeChar a).head? == some '\\' &&
      escapedChars.all fun b => !(escapeChar a).isPrefixOf (escapeChar b) || a == b) = true := by
    decide +kernel
  simp only [List.all_eq_true, Bool.and_eq_true, Bool.or_eq_true, Bool.not_eq_true', beq_iff_eq] at table
  refine fun a ha => ⟨(table a ha).1, fun b hb h => ?_⟩
  rcases (table a ha).2 b hb with hnot | heq
  · rw [List.isPrefixOf_iff_prefix.2 h] at hnot
    cases hnot
  · exact heq

theorem escapeChar_starts {a b : Char} (h : escapeChar a <+: escapeChar b) : a = b := by
  rcases escapeChar_cases a with ha | ⟨ha, -, hna⟩ <;> rcases escapeChar_cases b with hb | ⟨hb, -, hnb⟩
  · exact (escapeChar_escaped a ha).2 b hb h
  · have hhead := (escapeChar_escaped a ha).1
    rw [hb] at h
    cases hx : escapeChar a with
    | nil => simp [hx] at hhead
    | cons c cs =>
      simp only [hx, List.head?_cons, Option.some.injEq] at hhead
      rw [hx, List.cons_prefix_cons] at h
      exact absurd (h.1.symm.trans hhead) hnb
  · have hhead := (escapeChar_escaped b hb).1
    rw [ha] at h
    cases hx : escapeChar b with
    | nil => simp [hx] at hhead
    | cons c cs =>
      simp only [hx, List.head?_cons, Option.some.injEq] at hhead
      rw [hx, List.cons_prefix_cons] at h
      exact absurd (h.1.trans hhead) hna
  · rw [ha, hb, List.cons_prefix_cons] at h
    exact h.1

theorem escapeChar_head (c : Char) : ∃ d ds, escapeChar c = d :: ds ∧ d ≠ '"' := by
  rcases escapeChar_cases c with hc | ⟨hc, hq, -⟩
  · have hhead := (escapeChar_escaped c hc).1
    cases hx : escapeChar c with
    | nil => simp [hx] at hhead
    | cons d ds =>
      simp only [hx, List.head?_cons, Option.some.injEq] at hhead
      exact ⟨d, ds, rfl, by simp [hhead]⟩
  · exact ⟨c, [], hc, hq⟩

/-- A string literal ends at its closing quote. -/
theorem escaped_append_inj {a b x y : List Char}
    (h : a.flatMap escapeChar ++ '"' :: x = b.flatMap escapeChar ++ '"' :: y) : a = b ∧ x = y := by
  induction a generalizing b with
  | nil =>
    cases b with
    | nil => exact ⟨rfl, by simpa using h⟩
    | cons c b =>
      obtain ⟨d, ds, hd, hne⟩ := escapeChar_head c
      simp only [List.flatMap_nil, List.nil_append, List.flatMap_cons, hd, List.cons_append, List.cons.injEq] at h
      exact absurd h.1.symm hne
  | cons c a ih =>
    cases b with
    | nil =>
      obtain ⟨d, ds, hd, hne⟩ := escapeChar_head c
      simp only [List.flatMap_nil, List.nil_append, List.flatMap_cons, hd, List.cons_append, List.cons.injEq] at h
      exact absurd h.1 hne
    | cons c' b =>
      simp only [List.flatMap_cons, List.append_assoc] at h
      have hc : c = c' := by
        rcases List.prefix_or_prefix_of_prefix (List.prefix_append _ _) (h ▸ List.prefix_append _ _) with hp | hp
        · exact (escapeChar_starts hp).symm
        · exact escapeChar_starts hp
      subst hc
      obtain ⟨rfl, hxy⟩ := ih (List.append_cancel_left h)
      exact ⟨rfl, hxy⟩

theorem quote_append_inj {a b x y : String} (h : quote a ++ x = quote b ++ y) : a = b ∧ x = y := by
  have hl := congrArg String.toList h
  simp only [quote, String.toList_append, String.toList_ofList, List.cons_append, List.append_assoc, List.cons.injEq,
    true_and, List.nil_append] at hl
  obtain ⟨ha, hx⟩ := escaped_append_inj hl
  exact ⟨String.toList_injective ha, String.toList_injective hx⟩

/-- Inside a string literal a quote follows a backslash, so that the text of a member does not start there. -/
theorem escaped_no_member {a c rest : List Char}
    (h : a.flatMap escapeChar ++ ['"', '}'] = c ++ ',' :: '"' :: 'm' :: rest) : False := by
  induction a generalizing c with
  | nil =>
    have hlen := congrArg List.length h
    simp at hlen
    omega
  | cons x a ih =>
    rw [List.flatMap_cons, List.append_assoc, List.append_eq_append_iff] at h
    rcases h with ⟨d, -, hd⟩ | ⟨d, hx, hd⟩
    · exact ih hd
    · cases d with
      | nil => exact ih (c := []) hd.symm
      | cons e d =>
        simp only [List.cons_append, List.cons.injEq] at hd
        obtain ⟨rfl, hd⟩ := hd
        have hplain : escapeChar x = [x] := by
          rcases escapeChar_cases x with hesc | ⟨hesc, -, -⟩
          · have table : (escapedChars.all fun y => !(escapeChar y).contains ',') = true := by decide +kernel
            have hno := List.all_eq_true.1 table x hesc
            simp [hx] at hno
          · exact hesc
        have hnil : d = [] := by
          rw [hplain] at hx
          cases c <;> simp_all
        subst hnil
        cases a with
        | nil => simp at hd
        | cons y a =>
          obtain ⟨f, fs, hf, hne⟩ := escapeChar_head y
          simp only [List.flatMap_cons, hf, List.nil_append, List.cons_append, List.cons.injEq] at hd
          exact hne hd.1.symm

/-- The last member of an object, a string, is found from the end of the text. -/
theorem append_member_inj {x y a b : String}
    (h : x ++ (",\"model\":" ++ (quote a ++ "\x7d")) = y ++ (",\"model\":" ++ (quote b ++ "\x7d"))) : x = y ∧ a = b := by
  have hx : x = y := by
    have member : ∀ {u : List Char} {a b : String}, u ++ (",\"model\":" ++ (quote a ++ "\x7d")).toList =
        (",\"model\":" ++ (quote b ++ "\x7d")).toList → u = [] := by
      intro u a b hu
      have hname : (",\"model\":" ++ (quote b ++ "\x7d")).toList =
          (",\"model\":\"".toList) ++ (b.toList.flatMap escapeChar ++ ['"', '}']) := by
        simp [quote]
      rw [hname, List.append_eq_append_iff] at hu
      rcases hu with ⟨d, hd, hs⟩ | ⟨d, -, hs⟩
      · cases d with
        | nil => exact absurd hs.symm fun he => escaped_no_member (c := []) (by simpa [quote] using he)
        | cons e d =>
          simp only [String.toList_append, List.cons_append] at hs
          obtain ⟨rfl, -⟩ := List.cons.inj hs
          rcases u with _ | ⟨f, u⟩
          · rfl
          · have hmem : ',' ∈ "\"model\":\"".toList := by
              rw [show "\"model\":\"".toList = u ++ ',' :: d from (List.cons.inj hd).2]
              simp
            exact absurd hmem (by decide)
      · exact (escaped_no_member (by simpa [quote] using hs)).elim
    have hl := congrArg String.toList h
    rw [String.toList_append, String.toList_append (s := y), List.append_eq_append_iff] at hl
    rcases hl with ⟨u, hy, hu⟩ | ⟨u, hx, hu⟩
    · rw [member hu.symm, List.append_nil] at hy
      exact String.toList_injective hy.symm
    · rw [member hu.symm, List.append_nil] at hx
      exact String.toList_injective hx
  subst hx
  have htail := (String.append_right_inj _).1 ((String.append_right_inj _).1 h)
  exact ⟨rfl, (quote_append_inj htail).1⟩

/-- A number has one decimal text. -/
theorem decimal_inj {m n : Nat} (h : toString m = toString n) : m = n := by
  have hdigits : Nat.toDigits 10 m = Nat.toDigits 10 n := by
    have hlists := congrArg String.toList h
    rwa [Nat.toString_eq_ofList_toDigits, Nat.toString_eq_ofList_toDigits, String.toList_ofList, String.toList_ofList]
      at hlists
  calc
    m = Nat.ofDigitChars 10 (Nat.toDigits 10 m) 0 := Nat.ofDigitChars_ten_toDigits.symm
    _ = Nat.ofDigitChars 10 (Nat.toDigits 10 n) 0 := by rw [hdigits]
    _ = n := Nat.ofDigitChars_ten_toDigits

/-! ## Shared scalar validation -/

/-- `char::is_whitespace`. -/
def isWhiteSpace (c : Char) : Bool :=
  let n := c.toNat
  (9 ≤ n && n ≤ 13) || n == 0x20 || n == 0x85 || n == 0xA0 || n == 0x1680 ||
    (0x2000 ≤ n && n ≤ 0x200A) || n == 0x2028 || n == 0x2029 || n == 0x202F || n == 0x205F || n == 0x3000

/-- `!v.trim().is_empty()`. -/
def nonblank (s : String) : Bool := !s.toList.all isWhiteSpace

/-- `counter` (protocol.rs:5). -/
def counter (n : Nat) : Bool := n ≤ maxSafeInteger

/-- `positive` (sync.rs:31) and `position` (authority.rs:12). -/
def positive (n : Nat) : Bool := counter n && n != 0

private def lowerOrDigit (c : Char) : Bool := c.isLower || c.isDigit

private def codeTail : List Char → Bool → Bool
  | [], nonempty => nonempty
  | c :: cs, nonempty =>
    if c = '.' ∨ c = '_' ∨ c = '-' then nonempty && codeTail cs false
    else lowerOrDigit c && codeTail cs true

/-- `valid_code` (protocol.rs:28): nonempty parts of lower-case letters and digits between `.`,
`_` and `-`, the first starting with a letter. -/
def validCode (s : String) : Bool :=
  match s.toList with
  | [] => false
  | c :: cs => c.isLower && codeTail cs true

end Axton
