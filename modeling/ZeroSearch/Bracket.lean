import ZeroSearch.Binary64.Order
import ZeroSearch.Fault
import ZeroSearch.Interval
import ZeroSearch.Query
import ZeroSearch.Sign

/-!
# Brackets

An interval that was seen to hold a zero of some function: the values at its ends have opposite
signs, or one of them is zero. A zero that was met exactly is the bracket `[x, x]`.

The function is not part of the bracket. A bracket may be handed to a solver together with another
function, so solvers look at the ends again (`Enclosure.ofBracket`).
-/

namespace ZeroSearch

structure Bracket extends Interval where
  lo_finite : lo.isFinite = true
  hi_finite : hi.isFinite = true
  lo_le_hi : lo ≤ hi

namespace Bracket

/-- The bracket of a zero met exactly. -/
def degenerate (x : Float) (h : x.isFinite = true) : Bracket :=
  ⟨⟨x, x⟩, h, h, Binary64.le_refl h⟩

def isDegenerate (b : Bracket) : Bool := b.lo == b.hi

/-- Admits `[lo, hi]` as a bracket of `f`. The ends are looked at first, then the values there. -/
def ofEnds (f : Float → Float) (lo hi : Float) : Traced (Except Fault Bracket) :=
  if h : lo.isFinite = true ∧ hi.isFinite = true ∧ lo ≤ hi then do
    let fLo ← .value f lo
    let fHi ← .value f hi
    return if !fLo.isFinite then .error (.nonFinite 0 lo)
      else if !fHi.isFinite then .error (.nonFinite 0 hi)
      else if fLo != 0 && fHi != 0 && !oppositeSigns fLo fHi then .error .notABracket
      else .ok ⟨⟨lo, hi⟩, h.1, h.2.1, h.2.2⟩
  else
    return .error .invalidBounds

theorem ofEnds_of_invalid {lo hi : Float}
    (h : ¬ (lo.isFinite = true ∧ hi.isFinite = true ∧ lo ≤ hi)) (f : Float → Float) :
    ofEnds f lo hi = ⟨.error .invalidBounds, []⟩ :=
  dif_neg h

theorem ofEnds_of_valid {lo hi : Float}
    (h : lo.isFinite = true ∧ hi.isFinite = true ∧ lo ≤ hi) (f : Float → Float) :
    ofEnds f lo hi =
      ⟨if !(f lo).isFinite then .error (.nonFinite 0 lo)
        else if !(f hi).isFinite then .error (.nonFinite 0 hi)
        else if f lo != 0 && f hi != 0 && !oppositeSigns (f lo) (f hi) then .error .notABracket
        else .ok ⟨⟨lo, hi⟩, h.1, h.2.1, h.2.2⟩, [.value lo, .value hi]⟩ :=
  dif_pos h

theorem toInterval_of_ofEnds {f : Float → Float} {lo hi : Float} {b : Bracket}
    (h : (ofEnds f lo hi).result = .ok b) : b.toInterval = ⟨lo, hi⟩ := by
  by_cases hends : lo.isFinite = true ∧ hi.isFinite = true ∧ lo ≤ hi
  · rw [ofEnds_of_valid hends] at h
    dsimp only at h
    split at h
    · cases h
    · split at h
      · cases h
      · split at h
        · cases h
        · cases h; rfl
  · rw [ofEnds_of_invalid hends] at h
    cases h

end Bracket

end ZeroSearch
