import StaleQuery.Number.Shortest

/-!
Moments in time, in whole nanoseconds, and the number of seconds that is shown for them.
-/

namespace StaleQuery

/-- Nanoseconds since the epoch. -/
structure Time where
  nanoseconds : Int
  deriving DecidableEq, Repr, Inhabited

namespace Time

def ofSeconds (seconds : Int) (nanoseconds : Int) : Time :=
  ⟨seconds * 1000000000 + nanoseconds⟩

/-- The nearest number to a thousand-millionth. -/
def nano : Binary64 := ⟨4835703278458517, -82⟩

/-- Whole seconds and the fraction are rounded apart and then added. -/
def seconds (t : Time) : Binary64 :=
  (Binary64.ofInt (t.nanoseconds.fdiv 1000000000)).add
    (nano.mul (Binary64.ofInt (t.nanoseconds.fmod 1000000000)))

def text (t : Time) : String :=
  t.seconds.text false

end Time
end StaleQuery
