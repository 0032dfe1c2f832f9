/-!
Division of whole numbers to the nearest whole number. A quotient halfway between two goes to the
even one, so that rounding many quotients leans neither up nor down. A quotient is scaled by a power
of the base before it is rounded.
-/

namespace StaleQuery.Number

/-- `a / b` in units of `base ^ unit`, again as a quotient of whole numbers. -/
def inUnits (base a b : Nat) (unit : Int) : Nat × Nat :=
  if unit < 0 then (a * Nat.pow base (-unit).toNat, b) else (a, b * Nat.pow base unit.toNat)

/-- The quotient rounded to the nearest whole number, a half to the even one. -/
def roundDiv (num den : Nat) : Nat :=
  let q := num / den
  let r := num % den
  if 2 * r > den || (2 * r == den && q % 2 == 1) then q + 1 else q

end StaleQuery.Number
