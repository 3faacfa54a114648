import ZeroSearch.Bracketing.Bisection
import ZeroSearch.Bracketing.FalsePosition

/-!
# The choice of a bracketing method
-/

namespace ZeroSearch

inductive Method where
  | bisection
  | falsePosition
  | illinois
  deriving DecidableEq, Repr

namespace Method

/-- The methods in the order of their numbers, from 0 on. -/
def ofNumber? : Int → Option Method
  | 0 => some bisection
  | 1 => some falsePosition
  | 2 => some illinois
  | _ => none

/-- Illinois stands in for a number that has no method. -/
def ofNumber (n : Int) : Method := (ofNumber? n).getD illinois

def name : Method → String
  | bisection => "Bisection"
  | falsePosition => "FalsePosition"
  | illinois => "Illinois"

def nameOfNumber (n : Int) : String :=
  match ofNumber? n with
  | some m => m.name
  | none => "Unknown"

/-- Solves a bracket by the method; of the states only the enclosures are kept. -/
def solve : Method → (Float → Float) → Bracket → UInt64 → Policy → Run Enclosure
  | bisection, f, b, cap, p => (ZeroSearch.bisection f b cap p).map Pursuit.enclosure
  | falsePosition, f, b, cap, p => (ZeroSearch.falsePosition f b cap p).map Pursuit.enclosure
  | illinois, f, b, cap, p => (ZeroSearch.illinois f b cap p).map Pursuit.enclosure

end Method

end ZeroSearch
