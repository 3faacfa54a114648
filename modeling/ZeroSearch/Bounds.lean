import ZeroSearch.Fault
import ZeroSearch.Interval

/-!
# Bounds

The domain of a search: an interval with finite ends that holds more than one number.
-/

namespace ZeroSearch

structure Bounds extends Interval where
  lo_finite : lo.isFinite = true
  hi_finite : hi.isFinite = true
  lo_lt_hi : lo < hi

namespace Bounds

def ofEnds (lo hi : Float) : Except Fault Bounds :=
  if h : lo.isFinite = true ∧ hi.isFinite = true ∧ lo < hi then
    .ok ⟨⟨lo, hi⟩, h.1, h.2.1, h.2.2⟩
  else
    .error .invalidBounds

theorem toInterval_of_ofEnds {lo hi : Float} {b : Bounds} (h : ofEnds lo hi = .ok b) :
    b.toInterval = ⟨lo, hi⟩ := by
  unfold ofEnds at h
  split at h
  · cases h; rfl
  · cases h

end Bounds

end ZeroSearch
