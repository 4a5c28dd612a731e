import Axton.Core.Json

/-!
# Numbers in text

What the two JSON libraries do with a number, for runs of the model on values: `serde_jcs` prints the double it
stands for with the shortest digits that stand for it, as ECMAScript does, and `serde_json` (without
`float_roundtrip`) reads text that is not an integer with one rounding for the digits and one for the power of
ten. A number may read as its neighbour, and that one as the number again.

| here | there |
|------|-------|
| `shortest` | the digits and exponent of `ryu_js` |
| `fromParts`, `readInteger` | `f64_from_parts`, `parse_integer` and `parse_long_integer` of `serde_json` |
| `Num.reread` | `serde_json::from_str(serde_jcs::to_string(n))` |
-/

namespace Axton

/-! ## Rounding -/

/-- The nearest integer, ties to even. -/
def roundEven (q : Rat) : Int :=
  let f := q.floor
  let r := q - f
  if r < 1 / 2 then f else if 1 / 2 < r then f + 1 else if f % 2 = 0 then f else f + 1

/-- `b ^ e` for an exponent of either sign. -/
def scale (b : Nat) : Int → Rat
  | .ofNat e => (b ^ e : Nat)
  | .negSucc e => mkRat 1 (b ^ (e + 1))

/-- The nearest double of a positive number, ties to even. -/
def roundF64 (q : Rat) : Rat :=
  let e : Int := q.num.natAbs.log2 - q.den.log2 - 52
  let e := if q < scale 2 (e + 52) then e - 1 else e
  let e := max e (-1074)
  roundEven (q * scale 2 (-e)) * scale 2 e

/-! ## Reading -/

/-- `f64_from_parts`: the digits become a double, and so does the power of ten it is multiplied with or divided by. -/
def fromParts (significand : Nat) (exponent : Int) : Rat :=
  let f : Rat := natToF64 significand
  let power (e : Nat) : Rat := roundF64 (scale 10 e)
  if 0 ≤ exponent then roundF64 (f * power exponent.toNat)
  else if -308 ≤ exponent then roundF64 (f / power exponent.natAbs)
  else roundF64 (roundF64 (f / power 308) / power (exponent.natAbs - 308))

/-- The number of an integer's digits; digits beyond `u64` count as powers of ten. -/
def readInteger (negative : Bool) (v : Nat) : Num :=
  if 2 ^ 64 ≤ v then
    let f := if v / 10 < 2 ^ 64 then fromParts (v / 10) 1 else fromParts (v / 100) 2
    .float (if negative then -f else f)
  else if negative then if v ≤ 2 ^ 63 then .negInt (v - 1) else .float (-natToF64 v)
  else .posInt v

/-! ## Printing -/

/-- A decimal of `n` digits that stands for `q`, which lies between `10 ^ k` and `10 ^ (k + 1)`. -/
def decimalOf (q : Rat) (k : Int) (n : Nat) : Option (Nat × Int) :=
  let e := k + 1 - n
  let low := (q * scale 10 (-e)).floor.toNat
  let near := (roundEven (q * scale 10 (-e))).toNat
  (([near, low, low + 1] : List Nat).find? fun s : Nat => roundF64 (s * scale 10 e) = q).map fun s =>
    if s = 10 ^ n then (1, k + 1) else (s, e)

/-- The digits and exponent of the shortest decimal that stands for a positive double. -/
def shortest (q : Rat) : Option (Nat × Int) :=
  let k : Int := (((q.num.natAbs.log2 : Int) - q.den.log2) * 30103) / 100000
  let k := if q < scale 10 k then k - 1 else k
  let k := if scale 10 (k + 1) ≤ q then k + 1 else k
  (List.range 17).findSome? fun n => decimalOf q k (n + 1)

/-- How a number reads once it is printed. Below `10 ^ 21` an integer is printed without a point or an exponent. -/
def Num.reread (n : Num) : Num :=
  let q := n.asF64
  if q = 0 then .posInt 0
  else match shortest (if q < 0 then -q else q) with
  | none => n
  | some (s, e) =>
    if 0 ≤ e ∧ s * 10 ^ e.toNat < 10 ^ 21 then readInteger (decide (q < 0)) (s * 10 ^ e.toNat)
    else .float (if q < 0 then -fromParts s e else fromParts s e)

/-- `94.95886283158103` reads as its neighbour, which reads as itself. -/
example : fromParts 9495886283158103 (-14) = roundF64 (9495886283158104 * scale 10 (-14)) ∧
    fromParts 9495886283158104 (-14) = roundF64 (9495886283158104 * scale 10 (-14)) := by
  decide +kernel

/-- `5.939708399609784e-8` and its neighbour read as each other. -/
example : (Num.float (roundF64 (5939708399609784 * scale 10 (-23)))).reread =
      .float (roundF64 (59397083996097844 * scale 10 (-24))) ∧
    (Num.float (roundF64 (59397083996097844 * scale 10 (-24)))).reread =
      .float (roundF64 (5939708399609784 * scale 10 (-23))) := by
  decide +kernel

example : [(Num.float 1), .posInt 7, .negInt 0, .float (-5 / 2), .float (10 ^ 20), .posInt 0].map Num.reread =
    [.posInt 1, .posInt 7, .negInt 0, .float (-5 / 2), .float (10 ^ 20), .posInt 0] := by
  decide +kernel

end Axton
