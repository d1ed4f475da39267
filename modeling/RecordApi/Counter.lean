/-!
# Counters

A counter stands in for a clock where times must be known beforehand.
-/

namespace RecordApi

/-- A clock that goes on by a step at each look. -/
structure Counter where
  next : Int
  step : Int
deriving DecidableEq, Repr, Inhabited

/-- The counter after a look. -/
def Counter.advance (counter : Counter) : Counter :=
  { counter with next := counter.next + counter.step }

end RecordApi
