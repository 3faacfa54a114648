import ZeroSearch.Bracket

/-!
# Enclosures

The working copy of a bracket in a solver: an interval with the values at its ends. `narrow` moves
one end to a point inside, the one whose value has the sign of the new value, so a sign change
stays between the ends.
-/

namespace ZeroSearch

inductive Side where
  | lower
  | upper
  deriving DecidableEq, Repr

def Side.name : Side → String
  | lower => "Lower"
  | upper => "Upper"

structure Enclosure extends Interval where
  fLo : Float
  fHi : Float

namespace Enclosure

def signChange (e : Enclosure) : Bool := oppositeSigns e.fLo e.fHi

/-- The end that is itself a zero, the lower one first. -/
def endpointRoot (e : Enclosure) : Option Float :=
  if e.fLo == 0 then some e.lo else if e.fHi == 0 then some e.hi else none

/-- The end that gives way to a point with value `y`. -/
def replaced (e : Enclosure) (y : Float) : Side :=
  if oppositeSigns e.fLo y then .upper else .lower

def narrow (e : Enclosure) (x y : Float) : Enclosure :=
  match e.replaced y with
  | .upper => ⟨⟨e.lo, x⟩, e.fLo, y⟩
  | .lower => ⟨⟨x, e.hi⟩, y, e.fHi⟩

/-- Evaluates the ends of a bracket, the lower one first. The bracket may have been admitted for
another function, so what makes a bracket is asked again of the values. -/
def ofBracket (f : Float → Float) (b : Bracket) : Traced (Except Fault Enclosure) := do
  let fLo ← .value f b.lo
  let fHi ← .value f b.hi
  let e : Enclosure := ⟨b.toInterval, fLo, fHi⟩
  return if !(e.fLo.isFinite && e.fHi.isFinite) then
      .error (.nonFinite 0 (if e.fLo.isFinite then e.hi else e.lo))
    else if e.endpointRoot.isNone && !e.signChange then .error .notABracket
    else .ok e

theorem queries_ofBracket (f : Float → Float) (b : Bracket) :
    (ofBracket f b).queries = [.value b.lo, .value b.hi] := rfl

theorem result_ofBracket (f : Float → Float) (b : Bracket) :
    (ofBracket f b).result =
      if !((f b.lo).isFinite && (f b.hi).isFinite) then
        .error (.nonFinite 0 (if (f b.lo).isFinite then b.hi else b.lo))
      else if (endpointRoot ⟨b.toInterval, f b.lo, f b.hi⟩).isNone &&
          !oppositeSigns (f b.lo) (f b.hi) then .error .notABracket
      else .ok ⟨b.toInterval, f b.lo, f b.hi⟩ := rfl

theorem narrow_upper {e : Enclosure} {y : Float} (h : e.replaced y = .upper) (x : Float) :
    e.narrow x y = ⟨⟨e.lo, x⟩, e.fLo, y⟩ := by
  simp only [narrow, h]

theorem narrow_lower {e : Enclosure} {y : Float} (h : e.replaced y = .lower) (x : Float) :
    e.narrow x y = ⟨⟨x, e.hi⟩, y, e.fHi⟩ := by
  simp only [narrow, h]

end Enclosure

end ZeroSearch
