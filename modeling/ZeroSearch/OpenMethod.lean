import ZeroSearch.Iteration

/-!
# Open methods

Methods that start from one guess and follow the derivatives: `x - numerator / denominator` comes
after `x`. Nothing holds the iterates near the guess. A denominator that is zero, subnormal or not
finite ends the run before the division. Newton and Halley are the two of them.
-/

namespace ZeroSearch

structure Correction where
  numerator : Float
  denominator : Float

namespace Correction

/-- The least positive float with a full mantissa, `2 ^ -1022`. -/
def leastNormal : Float := Float.ofBits 0x0010000000000000

def isUnstable (c : Correction) : Bool :=
  !c.denominator.isFinite || decide (c.denominator.abs < leastNormal)

def quotient (c : Correction) : Float := c.numerator / c.denominator

end Correction

/-- A point and the value of the function there. -/
structure Sample where
  x : Float
  value : Float

/-- How a method gets from one iterate to the next, and which derivatives it evaluates for that. -/
structure OpenMethod where
  queries : Float → List Query
  correction : Sample → Correction

namespace OpenMethod

def iteration (d : OpenMethod) : Iteration Sample where
  queries s := d.queries s.x
  propose i s :=
    let c := d.correction s
    if c.isUnstable then .error (.derivativeTooSmall (i - 1) s.x)
    else
      let x := s.x - c.quotient
      if x.isFinite then .ok x else .error (.nonFinite i x)
  previous _ s _ := s.x
  absorb _ x y := ⟨x, y⟩
  latest s := s.x

/-- A start that is not finite is not evaluated. -/
def solve (d : OpenMethod) (f : Float → Float) (start : Float) (cap : UInt64) (p : Policy) :
    Run Sample :=
  if !start.isFinite then ⟨[], [], .failed (.nonFinite 0 start)⟩
  else
    let y := f start
    let opening := [.value start]
    if !y.isFinite then ⟨opening, [], .failed (.nonFinite 0 start)⟩
    else if y == 0 then ⟨opening, [], .found ⟨start, 0, 0⟩⟩
    else d.iteration.run f p cap opening ⟨start, y⟩

end OpenMethod

/-- The step is `f / f'`. -/
def newtonMethod (d1 : Float → Float) : OpenMethod where
  queries x := [.slope x]
  correction s := ⟨s.value, d1 s.x⟩

/-- The step is `2 f f' / (2 f' ^ 2 - f f'')`. -/
def halleyMethod (d1 d2 : Float → Float) : OpenMethod where
  queries x := [.slope x, .curvature x]
  correction s :=
    let slope := d1 s.x
    ⟨2 * s.value * slope, 2 * slope * slope - s.value * d2 s.x⟩

def newton (f d1 : Float → Float) : Float → UInt64 → Policy → Run Sample :=
  (newtonMethod d1).solve f

def halley (f d1 d2 : Float → Float) : Float → UInt64 → Policy → Run Sample :=
  (halleyMethod d1 d2).solve f

end ZeroSearch
