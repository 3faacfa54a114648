import ZeroSearch.Binary64.Logarithm
import ZeroSearch.Bracketing.Rule

/-!
# Bisection

Every round halves the enclosure. It converges for any bracket, whatever the shape of the
function, and `bisectionBound` tells the rounds in advance.
-/

namespace ZeroSearch

/-- The point before the first middle is the lower end. -/
def bisectionRule : Rule Unit where
  initial := ()
  choose e _ := e.middle
  previous _ _ latest _ := latest
  remember _ _ := ()

def bisection : (Float → Float) → Bracket → UInt64 → Policy → Run (Pursuit Unit) :=
  bisectionRule.solve

/-- The halvings that bring `width` down to `target`: none if it is already there, and the greatest
count if the target is not positive. -/
def bisectionBound (width target : Float) : UInt64 :=
  if ¬ 0 < target then 18446744073709551615
  else if width ≤ target then 0
  else UInt64.ofNat (Binary64.ceilLog2 (width / target))

end ZeroSearch
