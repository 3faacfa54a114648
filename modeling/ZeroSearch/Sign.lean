/-!
# Sign changes

Two values straddle zero when one is negative and the other positive. The signs are compared and not
the product with zero, which underflows for tiny values; a zero and a NaN are on neither side.
-/

namespace ZeroSearch

def oppositeSigns (a b : Float) : Bool :=
  (decide (a < 0) && decide (0 < b)) || (decide (0 < a) && decide (b < 0))

theorem oppositeSigns_eq_true {a b : Float} :
    oppositeSigns a b = true ↔ a < 0 ∧ 0 < b ∨ 0 < a ∧ b < 0 := by
  simp [oppositeSigns]

theorem oppositeSigns_comm (a b : Float) : oppositeSigns a b = oppositeSigns b a := by
  simp only [oppositeSigns, Bool.and_comm, Bool.or_comm]

end ZeroSearch
