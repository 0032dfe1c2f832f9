import StaleQuery.Number.Binary64

/-!
The shortest decimal that reads back as a given number, and of those the nearest to it. It is
written out in full from 0.0001 up to 10 ^ 16 and with an exponent outside.
-/

namespace StaleQuery.Binary64

/-- `digits · 10 ^ exponent`, without a sign. -/
structure Decimal where
  digits : Nat
  exponent : Int
  deriving DecidableEq, Repr

/-- A positive number as a fraction of whole numbers. -/
def ratio (mantissa : Nat) (exponent : Int) : Nat × Nat :=
  Number.inUnits 2 mantissa 1 (-exponent)

/-- Whether `digits · 10 ^ unit` lies among the reals that round to `mantissa · 2 ^ exponent`. -/
def readsBack (mantissa : Nat) (exponent : Int) (digits : Nat) (unit : Int) : Bool :=
  let lowerHalf : Nat :=
    if mantissa = Nat.pow 2 (precision - 1) && exponent > leastExponent then 1 else 2
  -- in quarters of the last place
  let (lowNum, lowDen) := ratio (4 * mantissa - lowerHalf) (exponent - 2)
  let (highNum, highDen) := ratio (4 * mantissa + 2) (exponent - 2)
  let (num, den) := Number.inUnits 10 digits 1 (-unit)
  if mantissa % 2 == 0 then lowNum * den ≤ num * lowDen && num * highDen ≤ highNum * den
  else lowNum * den < num * lowDen && num * highDen < highNum * den

/-- The neighbours of a positive number on the grid of `10 ^ unit` that read back, nearer first. -/
def onGrid? (mantissa : Nat) (exponent : Int) (unit : Int) : Option Decimal :=
  let (a, b) := ratio mantissa exponent
  let (n, d) := Number.inUnits 10 a b unit
  let below := n / d
  let nearest := Number.roundDiv n d
  let other := if nearest = below then below + 1 else below
  if readsBack mantissa exponent nearest unit then some ⟨nearest, unit⟩
  else if readsBack mantissa exponent other unit then some ⟨other, unit⟩
  else none

/-- The number of digits before the point of `a / b`, which is zero or negative below one tenth. -/
def pointPlace (a b : Nat) : Int :=
  if b ≤ a then (Nat.toDigits 10 (a / b)).length
  else
    let k := (Nat.toDigits 10 (b / a)).length
    if a * Nat.pow 10 (k - 1) ≥ b then 2 - (k : Int) else 1 - (k : Int)

/-- A number written out to its last digit. -/
def exactDecimal (mantissa : Nat) (exponent : Int) : Decimal :=
  if exponent < 0 then ⟨mantissa * Nat.pow 5 (-exponent).toNat, exponent⟩
  else ⟨mantissa * Nat.pow 2 exponent.toNat, 0⟩

def shortestPositive (mantissa : Nat) (exponent : Int) : Decimal :=
  let (a, b) := ratio mantissa exponent
  let place := pointPlace a b
  let grids := (List.range 17).map fun (i : Nat) => place - 1 - i
  (grids.findSome? (onGrid? mantissa exponent)).getD (exactDecimal mantissa exponent)

/-- Without zeros at the end of its digits. -/
def Decimal.trimmed : Nat → Decimal → Decimal
  | 0, d => d
  | fuel + 1, d =>
    if d.digits ≠ 0 ∧ d.digits % 10 = 0 then trimmed fuel ⟨d.digits / 10, d.exponent + 1⟩ else d

/-- Positional for up to 16 digits before the point and up to four places behind it before the
first digit, else with an exponent of at least two digits. -/
def Decimal.text (d : Decimal) : String :=
  let ds := Nat.toDigits 10 d.digits
  let point : Int := ds.length + d.exponent
  if -4 < point ∧ point ≤ 16 then
    if point ≤ 0 then
      String.ofList ('0' :: '.' :: (List.replicate (-point).toNat '0' ++ ds))
    else
      let k := point.toNat
      let whole := ds.take k ++ List.replicate (k - ds.length) '0'
      let fraction := if ds.length ≤ k then ['0'] else ds.drop k
      String.ofList (whole ++ '.' :: fraction)
  else
    let e := point - 1
    let eDigits := Nat.toDigits 10 e.natAbs
    let padded := List.replicate (2 - eDigits.length) '0' ++ eDigits
    let fraction := if ds.length ≤ 1 then [] else '.' :: ds.drop 1
    String.ofList (ds.take 1 ++ fraction ++ 'e' :: (if e < 0 then '-' else '+') :: padded)

/-- The least power of two that is out of range. -/
def overflows (x : Binary64) : Bool :=
  (bitLength x.mantissa.natAbs : Int) + x.exponent > 1024

def text (negativeZero : Bool) (x : Binary64) : String :=
  if x.mantissa = 0 then (if negativeZero then "-0.0" else "0.0")
  else
    let sign := if x.mantissa < 0 then "-" else ""
    if x.overflows then sign ++ "inf"
    else
      let n := x.normalize
      let d := shortestPositive n.mantissa.natAbs n.exponent
      sign ++ (d.trimmed 20).text

end StaleQuery.Binary64
