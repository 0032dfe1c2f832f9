import StaleQuery.Json.Basic
import StaleQuery.Number.Shortest

/-!
Numbers with a fraction or an exponent. They stand for the nearest number of 53 bits and are kept as
the shortest text that reads back as it.
-/

namespace StaleQuery.Json

def natOfDigits (ds : List Char) : Nat :=
  ds.foldl (fun n d => n * 10 + (d.toNat - 48)) 0

/-- The number `digits · 10 ^ exponent`. Past the largest number it is `Infinity`. -/
def ofDecimal (negative : Bool) (digits : List Char) (exponent : Int) : Json :=
  let n := natOfDigits digits
  let magnitude : Int := (Nat.toDigits 10 n).length + exponent
  let infinite := decimal (if negative then "-Infinity" else "Infinity")
  if n = 0 || magnitude < -400 then decimal (if negative then "-0.0" else "0.0")
  else if 400 < magnitude then infinite
  else
    let (num, den) := Number.inUnits 10 n 1 (-exponent)
    let x := Binary64.ofRatio negative num den
    if x.overflows then infinite else decimal (x.text negative)

end StaleQuery.Json
