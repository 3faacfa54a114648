/-!
# Intervals

A pair of ends with the arithmetic that the searches need. Nothing is required of the ends here:
`Bounds`, `Bracket` and `Enclosure` add what they know about theirs.
-/

namespace ZeroSearch

structure Interval where
  lo : Float
  hi : Float

/-- The middle of `lo` and `hi`. Where `hi - lo` overflows the halves are added instead. -/
def midpoint (lo hi : Float) : Float :=
  let width := hi - lo
  if width.isFinite then lo + width * 0.5 else lo * 0.5 + hi * 0.5

namespace Interval

def width (i : Interval) : Float := i.hi - i.lo

def middle (i : Interval) : Float := midpoint i.lo i.hi

/-- Both ends belong to the interval. -/
def contains (i : Interval) (x : Float) : Bool := decide (i.lo ≤ x) && decide (x ≤ i.hi)

/-- Ends are compared as numbers, so `-0` and `0` are the same end. -/
instance : BEq Interval where
  beq i j := i.lo == j.lo && i.hi == j.hi

theorem contains_eq_true {i : Interval} {x : Float} :
    i.contains x = true ↔ i.lo ≤ x ∧ x ≤ i.hi := by
  simp [contains]

end Interval

end ZeroSearch
