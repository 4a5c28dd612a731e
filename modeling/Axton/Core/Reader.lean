import Axton.Core.Canonical
import Mathlib.Tactic.IntervalCases
import Mathlib.Tactic.Ring

/-!
# Reading JSON text

A reader of JSON texts by RFC 8259, with no limit on nesting: white space between tokens, the escapes of
strings with surrogate pairs, and objects that keep the last of several entries with one key. What a
number token stands for is taken as given, beside the text of a number.

Canonical text reads back as the value it was written for, up to entry order and number form, with each
number as the reader takes its text (`parseJson_text`). Read exactly, it is that value, so the text tells
values apart (`canonicalJson_inj`), whatever the reader that a program uses makes of numbers.
-/

namespace Axton

/-! ## Strings -/

def hexValue (c : Char) : Option Nat :=
  if '0' ≤ c ∧ c ≤ '9' then some (c.toNat - 48)
  else if 'a' ≤ c ∧ c ≤ 'f' then some (c.toNat - 87)
  else if 'A' ≤ c ∧ c ≤ 'F' then some (c.toNat - 55)
  else none

/-- Four hexadecimal digits. -/
def readHex : List Char → Option (Nat × List Char)
  | a :: b :: c :: d :: cs => do
    let a ← hexValue a
    let b ← hexValue b
    let c ← hexValue c
    let d ← hexValue d
    return (((a * 16 + b) * 16 + c) * 16 + d, cs)
  | _ => none

/-- The second half of a surrogate pair. -/
def readLow (high : Nat) : List Char → Option (Char × List Char)
  | '\\' :: 'u' :: cs => do
    let (low, cs) ← readHex cs
    if 0xDC00 ≤ low ∧ low ≤ 0xDFFF then
      return (Char.ofNat (0x10000 + (high - 0xD800) * 0x400 + (low - 0xDC00)), cs)
    else none
  | _ => none

/-- The character of a `\\u` escape. -/
def readUnicode (cs : List Char) : Option (Char × List Char) := do
  let (n, cs) ← readHex cs
  if n < 0xD800 ∨ 0xDFFF < n then return (Char.ofNat n, cs)
  else if n < 0xDC00 then readLow n cs
  else none

def simpleEscapes : List (Char × Char) :=
  [('"', '"'), ('\\', '\\'), ('/', '/'), ('b', Char.ofNat 8), ('t', Char.ofNat 9), ('n', Char.ofNat 10),
    ('f', Char.ofNat 12), ('r', Char.ofNat 13)]

/-- One character of a string. -/
def readChar : List Char → Option (Char × List Char)
  | [] => none
  | c :: cs =>
    if c = '\\' then match cs with
      | [] => none
      | e :: cs => if e = 'u' then readUnicode cs else (simpleEscapes.lookup e).map (·, cs)
    else if c.toNat < 32 then none
    else some (c, cs)

/-- The rest of a string, after its opening quote. -/
def readString : Nat → List Char → Option (List Char × List Char)
  | 0, _ => none
  | fuel + 1, cs =>
    if cs.head? = some '"' then some ([], cs.drop 1)
    else do
      let (c, cs) ← readChar cs
      let (s, cs) ← readString fuel cs
      return (c :: s, cs)

/-! ## Values -/

def isSpace (c : Char) : Bool := c = ' ' || c = '\t' || c = '\n' || c = '\r'

def skipSpace (cs : List Char) : List Char := cs.dropWhile isSpace

/-- What a number is written with. -/
def numberChar (c : Char) : Bool := c.isDigit || c = '-' || c = '+' || c = '.' || c = 'e' || c = 'E'

/-- The text after a given token. -/
def after (token : String) (cs : List Char) : Option (List Char) :=
  if token.toList.isPrefixOf cs then some (cs.drop token.toList.length) else none

mutual
/-- One value; `number` says what a number token stands for. -/
def readValue (number : String → Option Num) : Nat → List Char → Option (Json × List Char)
  | 0, _ => none
  | fuel + 1, cs => match skipSpace cs with
    | [] => none
    | c :: cs =>
      if c = '\x7b' then match after "\x7d" (skipSpace cs) with
        | some cs => some (.obj [], cs)
        | none => do
          let (es, cs) ← readEntries number fuel cs
          return (.obj (Fields.extend [] es), cs)
      else if c = '[' then match after "]" (skipSpace cs) with
        | some cs => some (.arr [], cs)
        | none => do
          let (xs, cs) ← readItems number fuel cs
          return (.arr xs, cs)
      else if c = '"' then do
        let (s, cs) ← readString fuel cs
        return (.str (String.ofList s), cs)
      else if c = 't' then (after "rue" cs).map (.bool true, ·)
      else if c = 'f' then (after "alse" cs).map (.bool false, ·)
      else if c = 'n' then (after "ull" cs).map (.null, ·)
      else do
        let n ← number (String.ofList ((c :: cs).takeWhile numberChar))
        return (.num n, (c :: cs).dropWhile numberChar)
/-- The values of an array up to its bracket. -/
def readItems (number : String → Option Num) : Nat → List Char → Option (List Json × List Char)
  | 0, _ => none
  | fuel + 1, cs => do
    let (x, cs) ← readValue number fuel cs
    match after "," (skipSpace cs) with
    | some cs => do
      let (xs, cs) ← readItems number fuel cs
      return (x :: xs, cs)
    | none => do
      let cs ← after "]" (skipSpace cs)
      return ([x], cs)
/-- The entries of an object up to its brace. -/
def readEntries (number : String → Option Num) : Nat → List Char → Option (Fields × List Char)
  | 0, _ => none
  | fuel + 1, cs => do
    let cs ← after "\"" (skipSpace cs)
    let (k, cs) ← readString fuel cs
    let cs ← after ":" (skipSpace cs)
    let (v, cs) ← readValue number fuel cs
    match after "," (skipSpace cs) with
    | some cs => do
      let (es, cs) ← readEntries number fuel cs
      return ((String.ofList k, v) :: es, cs)
    | none => do
      let cs ← after "\x7d" (skipSpace cs)
      return ([(String.ofList k, v)], cs)
end

/-- The value of a text that holds nothing else. -/
def parseJson (number : String → Option Num) (text : String) : Option Json := do
  let (v, cs) ← readValue number (text.toList.length + 1) text.toList
  if skipSpace cs = [] then return v else none

/-! ## Strings read back -/

theorem readChar_control {n : Nat} (hn : n < 32) (rest : List Char) :
    readChar (escapeChar (Char.ofNat n) ++ rest) = some (Char.ofNat n, rest) := by
  interval_cases n <;> rfl

theorem readChar_escape (c : Char) (rest : List Char) : readChar (escapeChar c ++ rest) = some (c, rest) := by
  rcases escapeChar_cases c with hc | ⟨hc, -, hb⟩
  · simp only [escapedChars, List.mem_cons, List.mem_map, List.mem_range] at hc
    rcases hc with rfl | rfl | ⟨n, hn, rfl⟩
    · rfl
    · rfl
    · exact readChar_control hn rest
  · have hcontrol : ¬ c.toNat < 32 := by
      intro hlt
      have hescaped := readChar_control hlt []
      rw [Char.ofNat_toNat, hc] at hescaped
      simp [readChar, hb, hlt] at hescaped
    rw [hc]
    simp [readChar, hb, hcontrol]

theorem readString_escaped (cs rest : List Char) (fuel : Nat) (h : cs.length < fuel) :
    readString fuel (cs.flatMap escapeChar ++ '"' :: rest) = some (cs, rest) := by
  induction cs generalizing fuel with
  | nil =>
    cases fuel with
    | zero => cases h
    | succ fuel => rfl
  | cons c cs ih =>
    cases fuel with
    | zero => cases h
    | succ fuel =>
      have hrest := ih fuel (Nat.lt_of_succ_lt_succ h)
      obtain ⟨d, ds, hd, hne⟩ := escapeChar_head c
      have hopen : ¬ ((c :: cs).flatMap escapeChar ++ '"' :: rest).head? = some '"' := by
        simp [List.flatMap_cons, hd, hne]
      rw [readString, if_neg hopen, List.flatMap_cons, List.append_assoc, readChar_escape]
      simp [hrest]

/-- The length of a string's text. -/
theorem length_quote (s : String) : s.toList.length + 2 ≤ (quote s).toList.length := by
  have hle : ∀ cs : List Char, cs.length ≤ (cs.flatMap escapeChar).length := by
    intro cs
    induction cs with
    | nil => simp
    | cons c cs ih =>
      obtain ⟨d, ds, hd, -⟩ := escapeChar_head c
      simp only [List.flatMap_cons, List.length_append, List.length_cons, hd]
      omega
  have hs := hle s.toList
  simp only [quote, String.toList_ofList, List.length_append, List.length_cons, List.length_nil]
  omega

theorem quote_toList (s : String) : (quote s).toList = '"' :: (s.toList.flatMap escapeChar ++ ['"']) := by
  simp [quote]

/-! ## Values read back -/

/-- What RFC 8785 says of the text of a number: a JSON number that stands for one double. -/
structure Rfc8785 (number : Rat → String) : Prop where
  nonempty : ∀ q, IsF64 q → (number q).toList ≠ []
  chars : ∀ q, IsF64 q → ∀ c ∈ (number q).toList, numberChar c = true
  inj : ∀ q q', IsF64 q → IsF64 q' → number q = number q' → q = q'

/-- A reader of numbers that takes the text of a double for the double `value` gives. -/
structure Tokens (number : Rat → String) (read : String → Option Num) (value : Rat → Rat) : Prop where
  nonempty : ∀ q, IsF64 q → (number q).toList ≠ []
  chars : ∀ q, IsF64 q → ∀ c ∈ (number q).toList, numberChar c = true
  reads : ∀ q, IsF64 q → ∃ n, read (number q) = some n ∧ n.asF64 = value q

/-- Some reader is exact. It need not be the one of a program. -/
theorem Rfc8785.exact {number : Rat → String} (R : Rfc8785 number) : ∃ read, Tokens number read id := by
  classical
  refine ⟨fun s => if h : ∃ q, IsF64 q ∧ number q = s then some (.float h.choose) else none, R.nonempty, R.chars,
    fun q hq => ?_⟩
  have h : ∃ q', IsF64 q' ∧ number q' = number q := ⟨q, hq, rfl⟩
  exact ⟨.float h.choose, dif_pos h, R.inj _ _ h.choose_spec.1 hq h.choose_spec.2⟩

mutual
/-- The normal form of what is read back, where a number's text is taken for `value`. -/
def Json.readAs (value : Rat → Rat) : Json → Json
  | .num n => .num (.float (value n.asF64))
  | .arr xs => .arr (readAsItems value xs)
  | .obj fs => .obj (Fields.extend [] (readAsEntries value fs))
  | v => v
def Json.readAsItems (value : Rat → Rat) : List Json → List Json
  | [] => []
  | x :: xs => x.readAs value :: readAsItems value xs
def Json.readAsEntries (value : Rat → Rat) : Fields → Fields
  | [] => []
  | (k, v) :: fs => (k, v.readAs value) :: readAsEntries value fs
end

mutual
/-- Every object holds its entries in map order. -/
def Json.Keyed : Json → Prop
  | .arr xs => KeyedItems xs
  | .obj fs => Fields.Ordered fs ∧ KeyedEntries fs
  | _ => True
def Json.KeyedItems : List Json → Prop
  | [] => True
  | x :: xs => x.Keyed ∧ KeyedItems xs
def Json.KeyedEntries : Fields → Prop
  | [] => True
  | e :: fs => e.2.Keyed ∧ KeyedEntries fs
end

theorem Json.readAsItems_eq (value : Rat → Rat) (xs : List Json) : readAsItems value xs = xs.map (readAs value) := by
  induction xs with
  | nil => rfl
  | cons x xs ih => simp [readAsItems, ih]

theorem Json.readAsEntries_eq (value : Rat → Rat) (fs : Fields) :
    readAsEntries value fs = fs.map fun e => (e.1, e.2.readAs value) := by
  induction fs with
  | nil => rfl
  | cons e fs ih => simp [readAsEntries, ih]

theorem Json.keyed_arr {xs : List Json} : (Json.arr xs).Keyed ↔ ∀ x ∈ xs, x.Keyed := by
  have hitems : KeyedItems xs ↔ ∀ x ∈ xs, x.Keyed := by
    induction xs with
    | nil => simp [KeyedItems]
    | cons x xs ih => simp [KeyedItems, ih]
  rw [Keyed, hitems]

theorem Json.keyed_obj {fs : Fields} : (Json.obj fs).Keyed ↔ fs.Ordered ∧ ∀ e ∈ fs, e.2.Keyed := by
  have hentries : KeyedEntries fs ↔ ∀ e ∈ fs, e.2.Keyed := by
    induction fs with
    | nil => simp [KeyedEntries]
    | cons e fs ih => simp [KeyedEntries, ih]
  rw [Keyed, hentries]

mutual
/-- The reader takes every number for itself. -/
def Json.Kept (value : Rat → Rat) : Json → Prop
  | .num n => value n.asF64 = n.asF64
  | .arr xs => KeptItems value xs
  | .obj fs => KeptEntries value fs
  | _ => True
def Json.KeptItems (value : Rat → Rat) : List Json → Prop
  | [] => True
  | x :: xs => x.Kept value ∧ KeptItems value xs
def Json.KeptEntries (value : Rat → Rat) : Fields → Prop
  | [] => True
  | e :: fs => e.2.Kept value ∧ KeptEntries value fs
end

theorem Json.kept_arr {value : Rat → Rat} {xs : List Json} : (Json.arr xs).Kept value ↔ ∀ x ∈ xs, x.Kept value := by
  have hitems : KeptItems value xs ↔ ∀ x ∈ xs, x.Kept value := by
    induction xs with
    | nil => simp [KeptItems]
    | cons x xs ih => simp [KeptItems, ih]
  rw [Kept, hitems]

theorem Json.kept_obj {value : Rat → Rat} {fs : Fields} : (Json.obj fs).Kept value ↔ ∀ e ∈ fs, e.2.Kept value := by
  have hentries : KeptEntries value fs ↔ ∀ e ∈ fs, e.2.Kept value := by
    induction fs with
    | nil => simp [KeptEntries]
    | cons e fs ih => simp [KeptEntries, ih]
  rw [Kept, hentries]

/-- Maps of distinct entries are equal where their entries are. -/
theorem Fields.extend_map_iff {g g' : Json → Json} {fs : Fields} (hn : (fs.map (·.1)).Nodup) :
    Fields.extend [] (fs.map fun e => (e.1, g e.2)) = Fields.extend [] (fs.map fun e => (e.1, g' e.2)) ↔
      ∀ e ∈ fs, g e.2 = g' e.2 := by
  have hnames (g : Json → Json) : ((fs.map fun e => (e.1, g e.2)).map (·.1)).Nodup := by
    rw [List.map_map]
    exact hn
  constructor
  · intro h e he
    have hperm := (Fields.extend_perm (hnames g)).symm.trans ((List.Perm.of_eq h).trans (Fields.extend_perm (hnames g')))
    obtain ⟨e', he', heq⟩ := List.mem_map.1 (hperm.subset (List.mem_map_of_mem he))
    rw [Prod.mk.injEq] at heq
    have hsame : e' = e := List.inj_on_of_nodup_map hn he' he heq.1
    rw [← heq.2, hsame]
  · intro h
    rw [List.map_congr_left fun e he => by rw [h e he]]

/-- What is read back is the value exactly when every number is. -/
theorem Json.readAs_iff {value : Rat → Rat} (v : Json) (h : v.Safe) : v.readAs value = v.normal ↔ v.Kept value := by
  induction v using Json.members_induction with
  | null => simp [readAs, normal, Kept]
  | bool b => simp [readAs, normal, Kept]
  | num n => simp [readAs, normal, Kept]
  | str s => simp [readAs, normal, Kept]
  | arr xs ih =>
    have hall := Json.safe_arr.1 h
    rw [Json.kept_arr]
    simp only [readAs, normal, readAsItems_eq, normalItems_eq, Json.arr.injEq, List.map_inj_left]
    exact forall₂_congr fun x hx => ih x hx (hall x hx)
  | obj fs ih =>
    obtain ⟨hn, hall⟩ := Json.safe_obj.1 h
    rw [Json.kept_obj]
    simp only [readAs, normal, readAsEntries_eq, normalEntries_eq, Json.obj.injEq, Fields.extend_map_iff hn]
    exact forall₂_congr fun e he => ih e he (hall e he)

/-- Read exactly, a value is its own normal form. -/
theorem Json.readAs_id (v : Json) : v.readAs id = v.normal := by
  induction v using Json.members_induction with
  | null => rfl
  | bool b => rfl
  | num n => rfl
  | str s => rfl
  | arr xs ih =>
    simp only [readAs, normal, readAsItems_eq, normalItems_eq]
    rw [List.map_congr_left ih]
  | obj fs ih =>
    simp only [readAs, normal, readAsEntries_eq, normalEntries_eq]
    rw [List.map_congr_left fun e he => by rw [ih e he]]

/-- A number ends before `rest`. -/
def Stops (rest : List Char) : Prop := ∀ c ∈ rest.head?, numberChar c = false

/-- The text of `v` is read as a value of normal form `u`. -/
def ReadsTo (number : Rat → String) (read : String → Option Num) (v u : Json) : Prop :=
  ∀ fuel rest, (canonicalText number v).length < fuel → Stops rest →
    ∃ w, readValue read fuel (canonicalText number v ++ rest) = some (w, rest) ∧ w.normal = u ∧ w.Keyed

theorem skipSpace_cons {c : Char} (h : isSpace c = false) (cs : List Char) : skipSpace (c :: cs) = c :: cs := by
  simp [skipSpace, h]

theorem numberChar_not_space {c : Char} (h : numberChar c = true) : isSpace c = false := by
  unfold isSpace
  by_contra hspace
  simp only [Bool.not_eq_false, Bool.or_eq_true, decide_eq_true_eq] at hspace
  rcases hspace with ((rfl | rfl) | rfl) | rfl <;> revert h <;> decide

section
variable {number : Rat → String} {read : String → Option Num}

theorem readsTo_null : ReadsTo number read .null .null := by
  intro fuel rest h _
  cases fuel with
  | zero => cases h
  | succ fuel => exact ⟨.null, rfl, rfl, trivial⟩

theorem readsTo_bool (b : Bool) : ReadsTo number read (.bool b) (.bool b) := by
  intro fuel rest h _
  cases fuel with
  | zero => cases h
  | succ fuel => cases b <;> exact ⟨_, rfl, rfl, trivial⟩

theorem readsTo_str (s : String) : ReadsTo number read (.str s) (.str s) := by
  intro fuel rest h _
  cases fuel with
  | zero => cases h
  | succ fuel =>
    have hlen := length_quote s
    simp only [canonicalText] at h
    have hs := readString_escaped s.toList rest fuel (by omega)
    refine ⟨.str s, ?_, rfl, trivial⟩
    simp only [canonicalText, quote_toList, List.cons_append, List.append_assoc, List.nil_append]
    rw [readValue, skipSpace_cons (by decide)]
    simp [hs]

theorem readsTo_num {value : Rat → Rat} (R : Tokens number read value) {n : Num} (hn : IsF64 n.asF64) :
    ReadsTo number read (.num n) (.num (.float (value n.asF64))) := by
  intro fuel rest h hrest
  cases fuel with
  | zero => cases h
  | succ fuel =>
    obtain ⟨m, hm, hq⟩ := R.reads _ hn
    have hchars := R.chars _ hn
    have htake : ((number n.asF64).toList ++ rest).takeWhile numberChar = (number n.asF64).toList := by
      rw [List.takeWhile_append_of_pos hchars]
      cases rest with
      | nil => simp
      | cons c rest => simp [hrest c rfl]
    have hdrop : ((number n.asF64).toList ++ rest).dropWhile numberChar = rest := by
      rw [List.dropWhile_append_of_pos hchars]
      cases rest with
      | nil => simp
      | cons c rest => simp [hrest c rfl]
    refine ⟨.num m, ?_, by simp [Json.normal, hq], trivial⟩
    simp only [canonicalText]
    cases htext : (number n.asF64).toList with
    | nil => exact absurd htext (R.nonempty _ hn)
    | cons c cs =>
      have hc : numberChar c = true := hchars c (by simp [htext])
      have hno (d : Char) (hd : numberChar d = false) : ¬ c = d := by
        rintro rfl
        rw [hc] at hd
        cases hd
      have hof : String.ofList (c :: cs) = number n.asF64 := by rw [← htext, String.ofList_toList]
      rw [htext] at htake hdrop
      rw [List.cons_append] at htake hdrop ⊢
      rw [readValue, skipSpace_cons (numberChar_not_space hc)]
      simp only [if_neg (hno '\x7b' (by decide)), if_neg (hno '[' (by decide)), if_neg (hno '"' (by decide)),
        if_neg (hno 't' (by decide)), if_neg (hno 'f' (by decide)), if_neg (hno 'n' (by decide)), htake, hdrop, hof, hm]
      rfl

/-- The text of a value starts with none of the tokens that stand between values. -/
theorem canonicalText_head {value : Rat → Rat} (R : Tokens number read value) {v : Json} (h : ∀ n, v = .num n → IsF64 n.asF64) :
    ∃ c cs, canonicalText number v = c :: cs ∧ isSpace c = false ∧ c ≠ ']' := by
  cases v with
  | null => exact ⟨_, _, rfl, by decide, by decide⟩
  | bool b => cases b <;> exact ⟨_, _, rfl, by decide, by decide⟩
  | num n =>
    have hn := h n rfl
    cases htext : (number n.asF64).toList with
    | nil => exact absurd htext (R.nonempty _ hn)
    | cons c cs =>
      have hc : numberChar c = true := R.chars _ hn c (by simp [htext])
      refine ⟨c, cs, htext, numberChar_not_space hc, ?_⟩
      rintro rfl
      revert hc
      decide
  | str s => exact ⟨'"', _, quote_toList s, by decide, by decide⟩
  | arr xs => exact ⟨_, _, rfl, by decide, by decide⟩
  | obj fs => exact ⟨_, _, rfl, by decide, by decide⟩

theorem readItems_canonical {g : Json → Json} {xs : List Json} (hne : xs ≠ []) (ih : ∀ x ∈ xs, ReadsTo number read x (g x))
    (rest : List Char) (fuel : Nat) (hfuel : (commas (xs.map (canonicalText number))).length + 1 < fuel) :
    ∃ ws, readItems read fuel (commas (xs.map (canonicalText number)) ++ ']' :: rest) = some (ws, rest) ∧
      ws.map Json.normal = xs.map g ∧ ∀ w ∈ ws, w.Keyed := by
  induction xs generalizing fuel with
  | nil => exact absurd rfl hne
  | cons x xs ihxs =>
    cases fuel with
    | zero => cases hfuel
    | succ fuel =>
      cases xs with
      | nil =>
        simp only [List.map_cons, List.map_nil, commas] at hfuel ⊢
        have hstop : Stops (']' :: rest) := by
          rintro _ ⟨⟩
          decide
        obtain ⟨w, hw, hnormal, hkeyed⟩ := ih x (by simp) fuel (']' :: rest) (by omega) hstop
        have hcomma : after "," (skipSpace (']' :: rest)) = none := rfl
        have hclose : after "]" (skipSpace (']' :: rest)) = some rest := rfl
        refine ⟨[w], ?_, by simp [hnormal], by simpa using hkeyed⟩
        simp [readItems, hw, hcomma, hclose]
      | cons y ys =>
        simp only [List.map_cons, commas, List.length_append, List.length_cons] at hfuel ⊢
        obtain ⟨ws, hws, hnormals, hall⟩ := ihxs (by simp) (fun z hz => ih z (by simp [hz])) fuel
          (by simp only [List.map_cons]; omega)
        simp only [List.map_cons] at hws hnormals
        have hstop (cs : List Char) : Stops (',' :: cs) := by
          rintro _ ⟨⟩
          decide
        obtain ⟨w, hw, hnormal, hkeyed⟩ := ih x (by simp) fuel
          (',' :: (commas (canonicalText number y :: ys.map (canonicalText number)) ++ ']' :: rest)) (by omega) (hstop _)
        have hcomma (cs : List Char) : after "," (skipSpace (',' :: cs)) = some cs := rfl
        refine ⟨w :: ws, ?_, by simp [hnormal, hnormals], List.forall_mem_cons.2 ⟨hkeyed, hall⟩⟩
        simp [readItems, hw, hcomma, hws]

/-- One entry of an object, up to what follows its value. -/
theorem readEntry_canonical {k : String} {v u : Json} (hv : ReadsTo number read v u) {rest : List Char} (hstop : Stops rest)
    (fuel : Nat) (hfuel : (writeEntry (k, canonicalText number v)).length < fuel) :
    ∃ w, (w.normal = u ∧ w.Keyed) ∧
      (∀ cs ws cs', after "," (skipSpace rest) = some cs → readEntries read fuel cs = some (ws, cs') →
        readEntries read (fuel + 1) (writeEntry (k, canonicalText number v) ++ rest) = some ((k, w) :: ws, cs')) ∧
      ∀ cs, after "," (skipSpace rest) = none → after "\x7d" (skipSpace rest) = some cs →
        readEntries read (fuel + 1) (writeEntry (k, canonicalText number v) ++ rest) = some ([(k, w)], cs) := by
  have hlen := length_quote k
  simp only [writeEntry, List.length_append, List.length_cons] at hfuel
  obtain ⟨w, hw, hread⟩ := hv fuel rest (by omega) hstop
  have hkey := readString_escaped k.toList (':' :: (canonicalText number v ++ rest)) fuel (by omega)
  have hopen (cs : List Char) : after "\"" (skipSpace ('"' :: cs)) = some cs := rfl
  have hcolon (cs : List Char) : after ":" (skipSpace (':' :: cs)) = some cs := rfl
  refine ⟨w, hread, fun cs ws cs' hcomma hws => ?_, fun cs hcomma hclose => ?_⟩
  · simp [readEntries, writeEntry, quote_toList, hopen, hkey, hcolon, hw, hcomma, hws]
  · simp [readEntries, writeEntry, quote_toList, hopen, hkey, hcolon, hw, hcomma, hclose]

theorem readEntries_canonical {g : Json → Json} {es : Fields} (hne : es ≠ [])
    (ih : ∀ e ∈ es, ReadsTo number read e.2 (g e.2)) (rest : List Char) (fuel : Nat) (hfuel : (commas (es.map fun e => writeEntry (e.1, canonicalText number e.2))).length + 1 < fuel) :
    ∃ ws : Fields, readEntries read fuel (commas (es.map fun e => writeEntry (e.1, canonicalText number e.2)) ++ '\x7d' :: rest) =
      some (ws, rest) ∧ ((ws.map fun e => (e.1, e.2.normal)) = es.map fun e => (e.1, g e.2)) ∧ ∀ e ∈ ws, e.2.Keyed := by
  induction es generalizing fuel with
  | nil => exact absurd rfl hne
  | cons e es ihes =>
    obtain ⟨k, v⟩ := e
    have hv : ReadsTo number read v (g v) := ih (k, v) (by simp)
    cases fuel with
    | zero => cases hfuel
    | succ fuel =>
      cases es with
      | nil =>
        simp only [List.map_cons, List.map_nil, commas] at hfuel ⊢
        have hstop : Stops ('\x7d' :: rest) := by
          rintro _ ⟨⟩
          decide
        obtain ⟨w, ⟨hnormal, hkeyed⟩, -, hlast⟩ := readEntry_canonical (k := k) hv hstop fuel (by omega)
        exact ⟨[(k, w)], hlast rest rfl rfl, by simp [hnormal], by simpa using hkeyed⟩
      | cons e' es =>
        simp only [List.map_cons, commas, List.length_append, List.length_cons] at hfuel ⊢
        obtain ⟨ws, hws, hnormals, hall⟩ := ihes (by simp) (fun z hz => ih z (by simp [hz])) fuel
          (by simp only [List.map_cons]; omega)
        simp only [List.map_cons] at hws hnormals
        have hstop (cs : List Char) : Stops (',' :: cs) := by
          rintro _ ⟨⟩
          decide
        obtain ⟨w, ⟨hnormal, hkeyed⟩, hnext, -⟩ := readEntry_canonical (k := k) hv (hstop _) fuel (by omega)
        refine ⟨(k, w) :: ws, ?_, by simp [hnormal, hnormals], List.forall_mem_cons.2 ⟨hkeyed, hall⟩⟩
        rw [List.append_assoc, List.cons_append]
        exact hnext _ ws rest rfl hws

theorem commas_cons (x : List Char) (xs : List (List Char)) : ∃ cs, commas (x :: xs) = x ++ cs := by
  cases xs with
  | nil => exact ⟨[], by simp [commas]⟩
  | cons y ys => exact ⟨',' :: commas (y :: ys), rfl⟩

/-- Texts that start with no closing token do not close. -/
theorem after_commas_none {c : Char} {cs x : List Char} (hx : x = c :: cs) (hspace : isSpace c = false) (token : Char)
    (hne : c ≠ token) (xs : List (List Char)) (rest : List Char) :
    after (String.singleton token) (skipSpace (commas (x :: xs) ++ rest)) = none := by
  obtain ⟨tail, htail⟩ := commas_cons x xs
  rw [htail, hx, List.cons_append, List.cons_append, skipSpace_cons hspace, after]
  simp [hne.symm]

/-- The sorted texts of entries are the texts of the sorted entries. -/
theorem canonicalEntries_sorted (number : Rat → String) (fs : Fields) :
    ((canonicalEntries number fs).insertionSort beforeUtf16).map writeEntry =
      (fs.insertionSort beforeUtf16).map fun e => writeEntry (e.1, canonicalText number e.2) := by
  have hsort := List.map_insertionSort beforeUtf16 beforeUtf16 (fun e : String × Json => (e.1, canonicalText number e.2)) fs
    fun _ _ _ _ => Iff.rfl
  rw [canonicalEntries_eq, ← hsort, List.map_map]
  rfl

/-- An object closes itself: whatever follows its text. -/
theorem readsTo_obj {g : Json → Json} {fs : Fields} (hn : (fs.map (·.1)).Nodup)
    (ih : ∀ e ∈ fs, ReadsTo number read e.2 (g e.2)) (fuel : Nat) (rest : List Char)
    (hfuel : (canonicalText number (.obj fs)).length < fuel) :
    ∃ w, readValue read fuel (canonicalText number (.obj fs) ++ rest) = some (w, rest) ∧
      w.normal = .obj (Fields.extend [] (fs.map fun e => (e.1, g e.2))) ∧ w.Keyed := by
  have hperm := List.perm_insertionSort beforeUtf16 fs
  have hmembers : ∀ e ∈ fs.insertionSort beforeUtf16, ReadsTo number read e.2 (g e.2) := fun e he =>
    ih e (hperm.subset he)
  simp only [canonicalText, canonicalEntries_sorted] at hfuel ⊢
  cases fuel with
  | zero => cases hfuel
  | succ fuel =>
    cases hes : fs.insertionSort beforeUtf16 with
    | nil =>
      rw [hes] at hperm
      rw [← hperm.nil_eq]
      exact ⟨.obj [], rfl, rfl, Json.keyed_obj.2 ⟨.nil, fun _ he => absurd he List.not_mem_nil⟩⟩
    | cons e es =>
      rw [hes] at hfuel hmembers hperm
      simp only [List.length_append, List.length_cons, List.length_nil] at hfuel
      obtain ⟨ws, hws, hnormal, hkeyed⟩ := readEntries_canonical (by simp) hmembers rest fuel (by omega)
      have hopen : after "\x7d" (skipSpace (commas ((e :: es).map fun e => writeEntry (e.1, canonicalText number e.2)) ++
          '\x7d' :: rest)) = none := by
        refine @after_commas_none '"' (e.1.toList.flatMap escapeChar ++ '"' :: ':' :: canonicalText number e.2) _ ?_
          (by decide) '\x7d' (by decide) _ _
        simp [writeEntry, quote_toList]
      refine ⟨.obj (Fields.extend [] ws), ?_, ?_, ?_⟩
      · rw [List.cons_append, List.cons_append, List.append_assoc, readValue, skipSpace_cons (by decide)]
        simp only [List.cons_append, List.nil_append, hopen]
        simp [hws, -List.map_cons]
      · -- the entries were read in UTF-16 order, and make the same map
        have hnames : (ws.map (·.1)).Nodup := by
          have hkeys := congrArg (List.map (·.1)) hnormal
          simp only [List.map_map] at hkeys
          have hkeys : ws.map (·.1) = (e :: es).map (·.1) := hkeys
          rw [hkeys]
          exact (hperm.map _).nodup_iff.2 hn
        have hread := ((Fields.extend_perm hnames).map fun e => (e.1, e.2.normal)).trans
          ((List.Perm.of_eq hnormal).trans (hperm.map fun e => (e.1, g e.2)))
        have hnames' : (((Fields.extend [] ws).map fun e => (e.1, e.2.normal)).map (·.1)).Nodup := by
          rw [List.map_map]
          exact (Fields.extend_ordered .nil ws).names_nodup
        simp only [Json.normal, Json.normalEntries_eq]
        rw [Fields.extend_of_perm hread hnames']
      · refine Json.keyed_obj.2 ⟨Fields.extend_ordered .nil ws, fun x hx => ?_⟩
        rcases Fields.mem_extend hx with hx | hx
        · exact hkeyed x hx
        · cases hx

/-- Canonical text is read, number by number, as what the reader makes of them. -/
theorem readsTo {value : Rat → Rat} (R : Tokens number read value) (hsafe : ∀ n : Num, n.Safe → IsF64 n.asF64) (v : Json)
    (h : v.Safe) : ReadsTo number read v (v.readAs value) := by
  induction v using Json.members_induction with
  | null => exact readsTo_null
  | bool b => exact readsTo_bool b
  | num n => exact readsTo_num R (hsafe n h)
  | str s => exact readsTo_str s
  | arr xs ih =>
    intro fuel rest hfuel _
    have hall := Json.safe_arr.1 h
    have hmembers : ∀ x ∈ xs, ReadsTo number read x (x.readAs value) := fun x hx => ih x hx (hall x hx)
    simp only [canonicalText, canonicalItems_eq] at hfuel ⊢
    cases fuel with
    | zero => cases hfuel
    | succ fuel =>
      cases xs with
      | nil => exact ⟨.arr [], rfl, rfl, trivial⟩
      | cons x xs =>
        simp only [List.length_append, List.length_cons, List.length_nil] at hfuel
        obtain ⟨ws, hws, hnormal, hkeyed⟩ := readItems_canonical (by simp) hmembers rest fuel (by omega)
        have hx : ∀ n, x = .num n → IsF64 n.asF64 := by
          rintro n rfl
          have hn : (Json.num n).Safe := hall _ (by simp)
          exact hsafe n hn
        obtain ⟨c, cs, htext, hspace, hne⟩ := canonicalText_head R hx
        have hopen : after "]" (skipSpace (commas ((x :: xs).map (canonicalText number)) ++ ']' :: rest)) = none :=
          after_commas_none htext hspace ']' hne _ _
        refine ⟨.arr ws, ?_, ?_, Json.keyed_arr.2 hkeyed⟩
        · rw [List.cons_append, List.cons_append, List.append_assoc, readValue, skipSpace_cons (by decide)]
          simp only [List.cons_append, List.nil_append, hopen]
          simp [hws, -List.map_cons]
        · simp only [Json.normal, Json.readAs, Json.normalItems_eq, Json.readAsItems_eq, hnormal]
  | obj fs ih =>
    intro fuel rest hfuel _
    obtain ⟨hn, hall⟩ := Json.safe_obj.1 h
    simp only [Json.readAs, Json.readAsEntries_eq]
    exact readsTo_obj hn (fun e he => ih e he (hall e he)) fuel rest hfuel

/-- The text of an object starts no other object's. -/
theorem canonicalText_closed (R : Rfc8785 number) (hsafe : ∀ n : Num, n.Safe → IsF64 n.asF64) {fs gs : Fields}
    (hf : (Json.obj fs).Safe) (hg : (Json.obj gs).Safe)
    (h : canonicalText number (.obj fs) <+: canonicalText number (.obj gs)) :
    canonicalText number (.obj fs) = canonicalText number (.obj gs) := by
  obtain ⟨rest, hrest⟩ := h
  obtain ⟨read, T⟩ := R.exact
  have hread {es : Fields} (he : (Json.obj es).Safe) (rest : List Char) (fuel : Nat)
      (hfuel : (canonicalText number (.obj es)).length < fuel) :
      ∃ w, readValue read fuel (canonicalText number (.obj es) ++ rest) = some (w, rest) := by
    obtain ⟨hn, hall⟩ := Json.safe_obj.1 he
    obtain ⟨w, hw, -⟩ := readsTo_obj hn (fun e hm => readsTo T hsafe e.2 (hall e hm)) fuel rest hfuel
    exact ⟨w, hw⟩
  have hlen := congrArg List.length hrest
  rw [List.length_append] at hlen
  obtain ⟨w, hw⟩ := hread hf rest ((canonicalText number (.obj gs)).length + 1) (by omega)
  obtain ⟨w', hw'⟩ := hread hg [] ((canonicalText number (.obj gs)).length + 1) (by omega)
  rw [List.append_nil] at hw'
  rw [hrest, hw', Option.some.injEq, Prod.mk.injEq] at hw
  rw [← hrest, ← hw.2, List.append_nil]

end

/-! ## Numbers as doubles -/

theorem natToF64_small {n : Nat} (h : n < 2 ^ 53) : natToF64 n = n := by
  have hlog : n.log2 + 1 - 53 = 0 := by
    by_cases hn : n = 0
    · subst hn
      rfl
    · have hlt := (Nat.log2_lt hn).2 h
      omega
  simp [natToF64, hlog, Nat.mod_one]

/-- Up to 53 binary digits before at most 11 zeros. -/
theorem isF64_mul {k e : Nat} (hk : k ≤ 2 ^ 53) (he : e ≤ 11) : IsF64 ((k * 2 ^ e : Nat) : Rat) := by
  by_cases hlt : k < 2 ^ 53
  · refine ⟨k, e, by simpa using hlt, by omega, by omega, ?_⟩
    push_cast
    rw [zpow_natCast]
  · have hk : k = 2 ^ 53 := by omega
    refine ⟨2 ^ 52, e + 1, by decide, by omega, by omega, ?_⟩
    have hexp : ((e : Int) + 1) = ((e + 1 : Nat) : Int) := by push_cast; rfl
    rw [hk, hexp, zpow_natCast]
    push_cast
    ring

theorem isF64_natToF64 {n : Nat} (h : n < 2 ^ 64) : IsF64 (natToF64 n) := by
  have he : n.log2 + 1 - 53 ≤ 11 := by
    by_cases hn : n = 0
    · subst hn
      decide
    · have hlt := (Nat.log2_lt hn).2 h
      omega
  have hq : n / 2 ^ (n.log2 + 1 - 53) < 2 ^ 53 := by
    rw [Nat.div_lt_iff_lt_mul (Nat.two_pow_pos _), ← Nat.pow_add]
    exact lt_of_lt_of_le Nat.lt_log2_self (Nat.pow_le_pow_right (by omega) (by omega))
  unfold natToF64
  simp only
  split
  · exact isF64_mul (by omega) he
  · split
    · split
      · exact isF64_mul (by omega) he
      · exact isF64_mul (by omega) he
    · exact isF64_mul (by omega) he

theorem IsF64.neg {q : Rat} (h : IsF64 q) : IsF64 (-q) := by
  obtain ⟨m, e, hm, hlo, hhi, rfl⟩ := h
  exact ⟨-m, e, by rwa [Int.natAbs_neg], hlo, hhi, by push_cast; ring⟩

/-- A number that `serde_json` can hold. -/
def Num.Held : Num → Prop
  | .posInt n => n < 2 ^ 64
  | .negInt n => n < 2 ^ 63
  | .float q => IsF64 q

theorem Num.Held.isF64 {n : Num} (h : n.Held) : IsF64 n.asF64 := by
  cases n with
  | posInt n => exact isF64_natToF64 h
  | negInt n =>
    have hlt : n < 2 ^ 63 := h
    exact (isF64_natToF64 (n := n + 1) (by omega)).neg
  | float q => exact h

theorem Num.Safe.held {n : Num} (h : n.Safe) : n.Held := by
  cases n with
  | posInt n =>
    have hle : n ≤ maxSafeInteger := h
    show n < 2 ^ 64
    unfold maxSafeInteger at hle
    omega
  | negInt n =>
    have hle : n + 1 ≤ maxSafeInteger := h
    show n < 2 ^ 63
    unfold maxSafeInteger at hle
    omega
  | float q => exact h

/-! ## The canonical form -/

/-- The text parses, as a value with its entries in map order. -/
theorem parseJson_text {number : Rat → String} {read : String → Option Num} {value : Rat → Rat}
    (R : Tokens number read value) {v : Json} (h : v.Safe) :
    ∃ w, parseJson read (canonicalJson number v) = some w ∧ w.normal = v.readAs value ∧ w.Keyed := by
  obtain ⟨w, hw, hread⟩ := readsTo R (fun n hn => hn.held.isF64) v h ((canonicalText number v).length + 1) []
    (by omega) (by simp [Stops])
  refine ⟨w, ?_, hread⟩
  rw [List.append_nil] at hw
  simp only [parseJson, canonicalJson, String.toList_ofList, hw, Option.bind_eq_bind, Option.bind_some]
  rfl

/-- **The text parses back** to the value with each number as it is read, and to the same value exactly when
the reader takes every number of it for itself. -/
theorem parseJson_canonical {number : Rat → String} {read : String → Option Num} {value : Rat → Rat}
    (R : Tokens number read value) {v : Json} (h : v.Safe) :
    ∃ w, parseJson read (canonicalJson number v) = some w ∧ w.normal = v.readAs value ∧ (w.Same v ↔ v.Kept value) := by
  obtain ⟨w, hw, hnormal, -⟩ := parseJson_text R h
  refine ⟨w, hw, hnormal, ?_⟩
  rw [← v.readAs_iff h, ← hnormal]
  rfl

/-- **Canonical JSON is a canonical form**: one text for each value up to entry order and number form. -/
theorem canonicalJson_inj {number : Rat → String} (R : Rfc8785 number) {a b : Json} (ha : a.Safe) (hb : b.Safe) :
    canonicalJson number a = canonicalJson number b ↔ a.Same b := by
  constructor
  · intro h
    obtain ⟨read, T⟩ := R.exact
    obtain ⟨w, hw, hwa, -⟩ := parseJson_text T ha
    obtain ⟨w', hw', hwb, -⟩ := parseJson_text T hb
    rw [h, hw', Option.some.injEq] at hw
    subst hw
    rw [Json.readAs_id] at hwa hwb
    exact hwa.symm.trans hwb
  · intro h
    rw [canonicalJson, canonicalJson, canonicalText_of_same number ha hb h]

end Axton
