/-!
Classes of characters given by ranges of code points, both ends included.
-/

namespace StaleQuery.Text

/-- Whether a code point lies in one of the ranges. -/
def within (ranges : List (Nat × Nat)) (c : Char) : Bool :=
  ranges.any fun (low, high) => low ≤ c.toNat && c.toNat ≤ high

end StaleQuery.Text
