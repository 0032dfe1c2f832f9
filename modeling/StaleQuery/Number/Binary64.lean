import StaleQuery.Number.Rounding

/-!
Numbers with 53 significant bits, given exactly as a whole number times a power of two. Every
operation gives the nearest such number to the exact result, a tie going to the even one.
-/

namespace StaleQuery

/-- The value is `mantissa · 2 ^ exponent`. -/
structure Binary64 where
  mantissa : Int
  exponent : Int
  deriving DecidableEq, Repr

namespace Binary64

def precision : Nat := 53

/-- The exponent of the smallest positive number. -/
def leastExponent : Int := -1074

/-- How many bits a whole number has. -/
def bitLength (n : Nat) : Nat :=
  if n = 0 then 0 else n.log2 + 1

/-- Nearest number to `mantissa · 2 ^ exponent`. -/
def round (mantissa exponent : Int) : Binary64 :=
  let excess := ((bitLength mantissa.natAbs : Int) - precision).toNat
  let drop := max excess (leastExponent - exponent).toNat
  let magnitude := Number.roundDiv mantissa.natAbs (Nat.pow 2 drop)
  ⟨if mantissa < 0 then -(magnitude : Int) else magnitude, exponent + drop⟩

/-- Nearest number to `num / den`. -/
def ofRatio (negative : Bool) (num den : Nat) : Binary64 :=
  if num = 0 || den = 0 then ⟨0, 0⟩
  else
    let guess : Int := (num.log2 : Int) - den.log2 - precision
    let (n, d) := Number.inUnits 2 num den guess
    let exponent := max (if n / d ≥ Nat.pow 2 precision then guess + 1 else guess) leastExponent
    let (n, d) := Number.inUnits 2 num den exponent
    let magnitude := Number.roundDiv n d
    ⟨if negative then -(magnitude : Int) else magnitude, exponent⟩

def add (x y : Binary64) : Binary64 :=
  let e := min x.exponent y.exponent
  let units (z : Binary64) : Int := z.mantissa * Nat.pow 2 (z.exponent - e).toNat
  round (units x + units y) e

def mul (x y : Binary64) : Binary64 :=
  round (x.mantissa * y.mantissa) (x.exponent + y.exponent)

def ofInt (n : Int) : Binary64 :=
  round n 0

/-- The same value with as many significant bits as there is room for. A mantissa that was rounded up
to a power of two may have one bit too many. -/
def normalize (x : Binary64) : Binary64 :=
  let bits := bitLength x.mantissa.natAbs
  if precision < bits then ⟨x.mantissa / 2, x.exponent + 1⟩
  else
    let room := min (precision - bits) (x.exponent - leastExponent).toNat
    ⟨x.mantissa * Nat.pow 2 room, x.exponent - room⟩

end Binary64
end StaleQuery
