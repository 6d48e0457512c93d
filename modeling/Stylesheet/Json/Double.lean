import Stylesheet.Json

/-!
# Doubles in decimal

A decimal number in a JSON document is read in two roundings: its mantissa becomes a double, which
is then multiplied or divided by a power of ten (`Double.ofDecimal?`). A double is written with the
fewest digits to which it is the nearest double (`Double.shortest`), so a text that was written may
be read as a neighbour of what it was written for. All arithmetic is exact on natural numbers before
it is rounded: a double is `m * 2 ^ q` with `m < 2 ^ 53` and `q ≥ -1074`.
-/

set_option autoImplicit false

namespace Stylesheet

/-- The magnitude of a finite double, `mantissa * 2 ^ exponent`. -/
structure Double where
  mantissa : Nat
  exponent : Int
deriving DecidableEq, Repr, Inhabited

namespace Double

/-! ## Rounding -/

/-- `num / den`, to the nearest integer; a tie goes to the even one. -/
def roundDiv (num den : Nat) : Nat :=
  let q := num / den
  let r := num % den
  if 2 * r < den then q else if 2 * r > den then q + 1 else if q % 2 = 0 then q else q + 1

/-- Mantissas are below this, the 53rd power of two. -/
def mantissaBound : Nat := 9007199254740992

/-- The least exponent of a double. -/
def minExponent : Int := -1074

/-- The double nearest to `num / den`, whatever its size. -/
def ofRatio (num den : Nat) : Double :=
  if num = 0 then ⟨0, minExponent⟩
  else
    -- the quotient lies between `2 ^ (lead - 1)` and `2 ^ (lead + 1)`
    let lead : Int := (num.log2 : Int) - (den.log2 : Int)
    let scaled (q : Int) : Nat :=
      if q ≥ 0 then roundDiv num (den * Nat.pow 2 q.toNat)
      else roundDiv (num * Nat.pow 2 (-q).toNat) den
    let q := max (lead - 53) minExponent
    let m := scaled q
    if m < mantissaBound then ⟨m, q⟩
    else
      let m := scaled (q + 1)
      if m < mantissaBound then ⟨m, q + 1⟩ else ⟨mantissaBound / 2, q + 2⟩

/-- Whether the exponent is within that of doubles. -/
def isFinite (d : Double) : Bool := d.mantissa = 0 || d.mantissa.log2 + d.exponent < 1024

/-- The double nearest to `mantissa * 10 ^ exponent`; `none` beyond their range. -/
def nearest? (mantissa : Nat) (exponent : Int) : Option Double :=
  let size : Int := (toString mantissa).length + exponent
  if mantissa = 0 || size < -330 then some ⟨0, minExponent⟩
  else if size > 310 then none
  else
    let d := if exponent ≥ 0 then ofRatio (mantissa * Nat.pow 10 exponent.toNat) 1
      else ofRatio mantissa (Nat.pow 10 (-exponent).toNat)
    if d.isFinite then some d else none

/-! ## Shortest digits -/

/-- Whether the double is the nearest one to `mantissa * 10 ^ exponent`. -/
def standsFor (d : Double) (mantissa : Nat) (exponent : Int) : Bool :=
  match nearest? mantissa exponent with
  | some e => e.mantissa * Nat.pow 2 (e.exponent - minExponent).toNat =
      d.mantissa * Nat.pow 2 (d.exponent - minExponent).toNat
  | none => false

/-- The double as a ratio. -/
def ratio (d : Double) : Nat × Nat :=
  if d.exponent ≥ 0 then (d.mantissa * Nat.pow 2 d.exponent.toNat, 1)
  else (d.mantissa, Nat.pow 2 (-d.exponent).toNat)

/-- The nearest multiple of `10 ^ exponent`, in units of it. -/
def nearestOn (d : Double) (exponent : Int) : Nat :=
  let (num, den) := d.ratio
  if exponent ≥ 0 then roundDiv num (den * Nat.pow 10 exponent.toNat)
  else roundDiv (num * Nat.pow 10 (-exponent).toNat) den

/-- The neighbours of the double on the decimal grid of step `10 ^ exponent`, the nearer first. -/
def candidates (d : Double) (exponent : Int) : List Nat :=
  let n := d.nearestOn exponent
  [n, n - 1, n + 1]

/-- Goes from a coarse grid to finer ones until the double is the nearest one to a point of the
grid. -/
def search (d : Double) : Nat → Int → Nat × Int
  | 0, e => (d.nearestOn e, e)
  | fuel + 1, e =>
    match (d.candidates e).find? fun n => 0 < n && d.standsFor n e with
    | some n => (n, e)
    | none => search d fuel (e - 1)

/-- The decimal exponent of the double's first digit, or one more. -/
def magnitude (d : Double) : Int :=
  let (num, den) := d.ratio
  let lead : Int := (num.log2 : Int) - (den.log2 : Int)
  Int.fdiv (lead * 30103) 100000 + 2

/-- The fewest digits to which a double that is not zero is the nearest, and their exponent. -/
def shortest (d : Double) : Nat × Int := d.search 24 d.magnitude

/-! ## Text -/

/-- Writes digits and exponent: positional from `0.00001` up to sixteen digits before the point,
else with an exponent that has a sign; a whole number ends in `.0`. -/
def layout (digits : String) (exponent : Int) : String :=
  let n : Int := digits.length
  let point := n + exponent
  let zeros (k : Int) := String.ofList (List.replicate k.toNat '0')
  if 0 ≤ exponent && point ≤ 16 then digits ++ zeros exponent ++ ".0"
  else if 0 < point && point ≤ 16 then
    (digits.take point.toNat).toString ++ "." ++ (digits.drop point.toNat).toString
  else if -5 < point && point ≤ 0 then "0." ++ zeros (-point) ++ digits
  else
    let e := (if point > 0 then "e+" else "e") ++ toString (point - 1)
    if n = 1 then digits ++ e
    else (digits.take 1).toString ++ "." ++ (digits.drop 1).toString ++ e

/-- The text of a double. -/
def text (d : Double) : String :=
  if d.mantissa = 0 then "0.0"
  else
    let (n, e) := d.shortest
    layout (toString n) e

/-! ## Decimals -/

/-- The product, rounded. -/
def mul (d e : Double) : Double := ofRatio (d.ratio.1 * e.ratio.1) (d.ratio.2 * e.ratio.2)

/-- The quotient by a double that is not zero, rounded. -/
def div (d e : Double) : Double := ofRatio (d.ratio.1 * e.ratio.2) (d.ratio.2 * e.ratio.1)

/-- The double nearest to `10 ^ k`. -/
def powerOfTen (k : Nat) : Double := ofRatio (Nat.pow 10 k) 1

/-- The largest power of ten within the range of doubles. -/
def maxPower : Nat := 308

/-- The double divided by `10 ^ k`, rounded after every division by a power of ten in range. -/
def scaleDown (d : Double) (k : Nat) : Double :=
  if d.mantissa = 0 then d
  else if k ≤ maxPower then d.div (powerOfTen k)
  else scaleDown (d.div (powerOfTen maxPower)) (k - maxPower)
termination_by k
decreasing_by simp only [maxPower] at *; omega

/-- The double multiplied by `10 ^ k`, rounded; `none` beyond the range of doubles. -/
def scaleUp? (d : Double) (k : Nat) : Option Double :=
  if d.mantissa = 0 then some d
  else if k ≤ maxPower then
    let p := d.mul (powerOfTen k)
    if p.isFinite then some p else none
  else none

/-- The magnitude that a decimal is read as: the double nearest to its mantissa, scaled by its
exponent; `none` beyond the range of doubles. -/
def ofDecimal? (d : Decimal) : Option Double :=
  let m := ofRatio d.mantissa 1
  if d.exponent ≥ 0 then m.scaleUp? d.exponent.toNat else some (m.scaleDown (-d.exponent).toNat)

end Double

/-- The text of the double that a decimal is read as. -/
def Decimal.text (d : Decimal) : String :=
  (if d.negative then "-" else "") ++
    match Double.ofDecimal? d with
    | some x => x.text
    | none => "0.0"

end Stylesheet
