import ZeroSearch.Bracketing.Rule

/-!
# False position

Every round takes the point where the line through the ends of the enclosure meets zero. On a
function that is convex there, one end is never replaced and the other creeps. The Illinois
variant halves the weight of the value at an end that was kept twice in a row, and again for every
further time, which draws the next point towards that end. Weights enter the line only; the
enclosure keeps the values.
-/

namespace ZeroSearch

/-- How often each end was kept in a row, and the weight of its value. -/
structure Damping where
  keptLo : UInt64
  keptHi : UInt64
  weightLo : Float
  weightHi : Float

namespace Damping

def initial : Damping := ⟨0, 0, 1, 1⟩

/-- The weight of an end that was kept `kept` times in a row, the last time just now. -/
def weaken (damped : Bool) (kept : UInt64) (weight : Float) : Float :=
  if damped && decide (2 ≤ kept) then weight * 0.5 else weight

/-- The end that gave way starts afresh, the other was kept once more. -/
def update (damped : Bool) : Side → Damping → Damping
  | .upper, d => ⟨d.keptLo + 1, 0, weaken damped (d.keptLo + 1) d.weightLo, 1⟩
  | .lower, d => ⟨0, d.keptHi + 1, 1, weaken damped (d.keptHi + 1) d.weightHi⟩

end Damping

namespace Enclosure

/-- Where the line through the weighted values at the ends meets zero. -/
def secant (e : Enclosure) (d : Damping) : Float :=
  let gLo := e.fLo * d.weightLo
  let gHi := e.fHi * d.weightHi
  e.hi - gHi * (e.hi - e.lo) / (gHi - gLo)

/-- Rounding can put the secant point on an end or outside; the middle then stands in. -/
def secantInside (e : Enclosure) (d : Damping) : Float :=
  let x := e.secant d
  if x.isFinite ∧ e.lo < x ∧ x < e.hi then x else e.middle

/-- The end farther from `x`, the lower one if both are equally far. -/
def farEnd (e : Enclosure) (x : Float) : Float :=
  if e.hi - x ≤ x - e.lo then e.lo else e.hi

end Enclosure

/-- The first point is compared with the end farther from it. -/
def falsePositionRule (damped : Bool) : Rule Damping where
  initial := .initial
  choose := Enclosure.secantInside
  previous i e latest x := if i = 1 then e.farEnd x else latest
  remember := Damping.update damped

def falsePosition : (Float → Float) → Bracket → UInt64 → Policy → Run (Pursuit Damping) :=
  (falsePositionRule false).solve

def illinois : (Float → Float) → Bracket → UInt64 → Policy → Run (Pursuit Damping) :=
  (falsePositionRule true).solve

end ZeroSearch
