/-
# `Strata.Timestamp` — modification times
-/

namespace Strata

/-- A moment, as nanoseconds since the Unix epoch. -/
structure Timestamp where
  nanoseconds : Int
  deriving DecidableEq, Repr

namespace Timestamp

/-- The Unix epoch: the time of what has no time of its own. -/
def epoch : Timestamp := ⟨0⟩

/-- The moment so many seconds and nanoseconds after the epoch. -/
def ofSeconds (seconds : Int) (nanos : Int) : Timestamp := ⟨seconds * 1000000000 + nanos⟩

/-- The seconds, rounded toward the past. -/
def seconds (t : Timestamp) : Int := t.nanoseconds.fdiv 1000000000

/-- The nanoseconds since the last full second. -/
def subsecond (t : Timestamp) : Int := t.nanoseconds.fmod 1000000000

/-- Whether the first moment comes after the second. -/
def isAfter (a b : Timestamp) : Bool := b.nanoseconds < a.nanoseconds

end Timestamp

end Strata
