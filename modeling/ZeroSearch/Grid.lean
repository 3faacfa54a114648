import ZeroSearch.Binary64.Order
import ZeroSearch.Bounds

/-!
# Grids

Bounds cut into windows of one width, the last one cut off at the upper bound. The boundaries are
computed from their number, `lo + k * window`, so rounding does not pile up along the grid. Where
that does not get past the boundary before, because the window is small beside the spacing of the
floats there, the grid goes to the upper bound at once (`lt_next`); so the boundaries increase
strictly.
-/

namespace ZeroSearch

open Binary64

structure Grid where
  bounds : Bounds
  window : Float
  window_finite : window.isFinite = true
  window_pos : 0 < window
  window_le : ¬ bounds.width < window

namespace Grid

def ofWindow (bounds : Bounds) (window : Float) : Except Fault Grid :=
  if h : window.isFinite = true ∧ 0 < window ∧ ¬ bounds.width < window then
    .ok ⟨bounds, window, h.1, h.2.1, h.2.2⟩
  else
    .error .invalidWindow

def lo (g : Grid) : Float := g.bounds.lo

def hi (g : Grid) : Float := g.bounds.hi

def boundary (g : Grid) (k : UInt64) : Float :=
  let x := g.lo + k.toFloat * g.window
  if g.hi < x then g.hi else x

/-- The boundary number `k` if it lies past `a`, and otherwise the upper bound. -/
def next (g : Grid) (k : UInt64) (a : Float) : Float :=
  if a < g.boundary k then g.boundary k else g.hi

theorem lt_next (g : Grid) (k : UInt64) {a : Float} (h : a < g.hi) : a < g.next k a := by
  unfold next
  split
  · assumption
  · exact h

theorem next_le_hi (g : Grid) (k : UInt64) (a : Float) : g.next k a ≤ g.hi := by
  have hi_le := le_refl g.bounds.hi_finite
  unfold next
  split
  · rename_i h
    unfold boundary at h ⊢
    simp only at h ⊢
    split
    · exact hi_le
    · rename_i hx
      rw [if_neg hx] at h
      exact le_of_not_lt (not_isNaN_of_isFinite g.bounds.hi_finite) (not_isNaN_of_lt h).2 hx
  · exact hi_le

theorem isFinite_next (g : Grid) (k : UInt64) {a : Float} (ha : a.isFinite = true)
    (h : a < g.hi) : (g.next k a).isFinite = true :=
  isFinite_of_le_of_le ha g.bounds.hi_finite (le_of_lt (g.lt_next k h)) (g.next_le_hi k a)

/-! ## Progress -/

/-- The floats from `a` up to the upper bound. -/
def remaining (g : Grid) (a : Float) : Nat := (ordinal g.hi - ordinal a).toNat

theorem remaining_next_lt (g : Grid) (k : UInt64) {a : Float} (h : a < g.hi) :
    g.remaining (g.next k a) < g.remaining a := by
  have h₁ := ordinal_lt_of_lt h
  have h₂ := ordinal_lt_of_lt (g.lt_next k h)
  unfold remaining
  omega

/-! ## Boundaries -/

/-- The boundaries after `a`, of which the first has the number `k + 1`. -/
def pointsAfter (g : Grid) (k : UInt64) (a : Float) : List Float :=
  if h : a < g.hi then
    let b := g.next (k + 1) a
    b :: g.pointsAfter (k + 1) b
  else []
termination_by g.remaining a
decreasing_by exact g.remaining_next_lt (k + 1) h

/-- All boundaries, from the lower bound to the upper. -/
def points (g : Grid) : List Float := g.lo :: g.pointsAfter 0 g.lo

end Grid

end ZeroSearch
