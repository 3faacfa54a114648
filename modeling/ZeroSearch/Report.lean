import ZeroSearch.Bounds
import ZeroSearch.Bracket
import ZeroSearch.Decimal.Significant
import ZeroSearch.Fault

/-!
# Written reports

The lines in which faults, bounds and brackets are shown.
-/

namespace ZeroSearch

/-- Numbers in reports have six digits, and an exponent part below `1e-4` and from `1e6` on. -/
def reportStyle : Decimal.Style := ⟨6, -4, 2⟩

def Report.causeName (r : Report) : String :=
  match r.cause with
  | some c => c.name
  | none => "Unknown"

def Report.text (r : Report) : String :=
  let last := match r.lastValue with
    | some x => ", last_value=" ++ reportStyle.text x
    | none => ""
  "RootFindingError\x7bcode=" ++ r.causeName
    ++ ", iterations=" ++ Nat.repr r.iterations.toNat ++ last ++ "\x7d"

def Interval.text (kind : String) (i : Interval) : String :=
  kind ++ "[" ++ reportStyle.text i.lo ++ ", " ++ reportStyle.text i.hi ++ "]"

def Bounds.text (b : Bounds) : String := b.toInterval.text "Bounds"

def Bracket.text (b : Bracket) : String := b.toInterval.text "Bracket"

end ZeroSearch
