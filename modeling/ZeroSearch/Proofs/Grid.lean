import Mathlib
import ZeroSearch.Grid
import ZeroSearch.Proofs.Binary64.Arithmetic
import ZeroSearch.Proofs.Binary64.Comparison

/-!
# The boundaries of a grid

They increase strictly from the lower bound to the upper and are all finite. There are no more of
them than floats in the bounds, which is less than a 64-bit counter holds. The last of them is the
upper bound itself, except that a bound of negative zero can be met as positive zero, which is what
a sum gives.
-/

namespace ZeroSearch.Grid

open Binary64

variable {g : Grid} {k : UInt64} {a x : Float}

/-- The windows that are admitted are those of a grid. -/
theorem ofWindow_eq_ok {bounds : Bounds} {window : Float} :
    ofWindow bounds window = .ok g ↔ g.bounds = bounds ∧ g.window = window := by
  unfold ofWindow
  constructor
  · intro h
    split at h
    · cases h
      exact ⟨rfl, rfl⟩
    · cases h
  · rintro ⟨rfl, rfl⟩
    rw [dif_pos ⟨g.window_finite, g.window_pos, g.window_le⟩]

theorem pointsAfter_of_lt (h : a < g.hi) :
    g.pointsAfter k a = g.next (k + 1) a :: g.pointsAfter (k + 1) (g.next (k + 1) a) := by
  rw [pointsAfter, dif_pos h]

theorem pointsAfter_of_not_lt (h : ¬ a < g.hi) : g.pointsAfter k a = [] := by
  rw [pointsAfter, dif_neg h]

theorem pointsAfter_eq_nil : g.pointsAfter k a = [] ↔ ¬ a < g.hi := by
  refine ⟨fun h hlt => ?_, pointsAfter_of_not_lt⟩
  rw [pointsAfter_of_lt hlt] at h
  cases h

/-! ## Increase -/

theorem isChain_pointsAfter (g : Grid) (k : UInt64) (a : Float) :
    (a :: g.pointsAfter k a).IsChain (· < ·) := by
  fun_induction g.pointsAfter k a with
  | case1 k a h b ih => exact .cons_cons (g.lt_next (k + 1) h) ih
  | case2 => exact .singleton _

theorem pairwise_points (g : Grid) : g.points.Pairwise (· < ·) :=
  (g.isChain_pointsAfter 0 g.lo).pairwise

theorem between_of_mem_pointsAfter (hx : x ∈ g.pointsAfter k a) : a < x ∧ x ≤ g.hi := by
  fun_induction g.pointsAfter k a with
  | case1 k a h b ih =>
    have hab : a < b := g.lt_next (k + 1) h
    obtain rfl | hx := List.mem_cons.1 hx
    · exact ⟨hab, g.next_le_hi (k + 1) a⟩
    · obtain ⟨hbx, hhi⟩ := ih hx
      exact ⟨Binary64.lt_trans hab hbx, hhi⟩
  | case2 => cases hx

theorem between_of_mem_points (hx : x ∈ g.points) : g.lo ≤ x ∧ x ≤ g.hi := by
  obtain rfl | hx := List.mem_cons.1 hx
  · exact ⟨Binary64.le_refl g.bounds.lo_finite, Binary64.le_of_lt g.bounds.lo_lt_hi⟩
  · obtain ⟨hlo, hhi⟩ := between_of_mem_pointsAfter hx
    exact ⟨Binary64.le_of_lt hlo, hhi⟩

theorem isFinite_of_mem_points (hx : x ∈ g.points) : x.isFinite = true :=
  have ⟨hlo, hhi⟩ := between_of_mem_points hx
  isFinite_of_le_of_le g.bounds.lo_finite g.bounds.hi_finite hlo hhi

/-! ## Number -/

theorem remaining_lt (g : Grid) {a : Float} (ha : a.isFinite = true) : g.remaining a < 2 ^ 64 := by
  have h₁ := isFinite_iff_ordinal.1 ha
  have h₂ := isFinite_iff_ordinal.1 g.bounds.hi_finite
  unfold remaining hi
  omega

theorem length_pointsAfter_le (g : Grid) (k : UInt64) (a : Float) :
    (g.pointsAfter k a).length ≤ g.remaining a := by
  fun_induction g.pointsAfter k a with
  | case1 k a h b ih =>
    have hb : g.remaining b < g.remaining a := g.remaining_next_lt (k + 1) h
    rw [List.length_cons]
    omega
  | case2 => exact Nat.zero_le _

/-! ## The last boundary -/

/-- A boundary that is the negative zero is cut off. The lower bound lies below it and is not a zero,
so the sum that computes a boundary is never the negative one. -/
theorem hi_lt_sum (hhi : ordinal g.hi = 0) (h : g.boundary k = -0.0) :
    g.hi < g.lo + k.toFloat * g.window := by
  by_contra hle
  have hsum : g.boundary k = g.lo + k.toFloat * g.window := if_neg hle
  have hlo : ordinal g.lo ≠ 0 := by
    have hlt : ordinal g.lo < ordinal g.hi := ordinal_lt_of_lt g.bounds.lo_lt_hi
    omega
  rw [hsum] at h
  have hzero := add_eq_zero g.bounds.lo_finite hlo (congrArg Float.isNaN h) (congrArg ordinal h)
  exact absurd (h.symm.trans hzero) (by decide)

theorem boundary_eq_hi (hhi : ordinal g.hi = 0) (h : g.boundary k = -0.0) :
    g.boundary k = g.hi := if_pos (hi_lt_sum hhi h)

theorem next_eq_hi (hlt : ¬ g.next k a < g.hi) :
    g.next k a = g.hi ∨ g.hi = -0.0 ∧ g.next k a = 0.0 := by
  have nhi : g.hi.isNaN = false := not_isNaN_of_isFinite g.bounds.hi_finite
  have hle := g.next_le_hi k a
  have nnext := (not_isNaN_of_le hle).1
  have hord : ordinal (g.next k a) = ordinal g.hi := by
    have := ordinal_le_of_le hle
    rw [lt_iff_ordinal nnext nhi] at hlt
    omega
  by_cases h₀ : ordinal g.hi = 0
  · obtain hz | hz := zero_cases nnext (hord.trans h₀)
    · obtain hhi | hhi := zero_cases nhi h₀
      · exact .inl (hz.trans hhi.symm)
      · exact .inr ⟨hhi, hz⟩
    · refine .inl ?_
      unfold next at hz ⊢
      split at hz
      · rename_i ha
        rw [if_pos ha]
        exact boundary_eq_hi h₀ hz
      · rename_i ha
        rw [if_neg ha]
  · exact .inl (eq_of_ordinal_eq (hord ▸ h₀) hord)

theorem getLast?_pointsAfter (h : a < g.hi) :
    (g.pointsAfter k a).getLast? = some g.hi ∨
      g.hi = -0.0 ∧ (g.pointsAfter k a).getLast? = some 0.0 := by
  fun_induction g.pointsAfter k a with
  | case1 k a _ b ih =>
    by_cases hb : b < g.hi
    · have hne : g.pointsAfter (k + 1) b ≠ [] := fun hnil => pointsAfter_eq_nil.1 hnil hb
      rw [List.getLast?_cons_of_ne_nil hne]
      exact ih hb
    · rw [pointsAfter_of_not_lt hb, List.getLast?_singleton, Option.some_inj, Option.some_inj]
      exact next_eq_hi hb
  | case2 k a hn => exact absurd h hn

theorem getLast?_points (g : Grid) :
    g.points.getLast? = some g.hi ∨ g.hi = -0.0 ∧ g.points.getLast? = some 0.0 := by
  have hlt : g.lo < g.hi := g.bounds.lo_lt_hi
  have hne : g.pointsAfter 0 g.lo ≠ [] := fun hnil => pointsAfter_eq_nil.1 hnil hlt
  rw [points, List.getLast?_cons_of_ne_nil hne]
  exact getLast?_pointsAfter hlt

/-! ## Grids with few boundaries -/

/-- The boundaries after `a`, of which the first has the number `k + 1`, are `xs`. -/
def leadsTo (g : Grid) (k : UInt64) (a : Float) : List Float → Bool
  | [] => !decide (a < g.hi)
  | b :: xs => decide (a < g.hi) && decide (g.next (k + 1) a = b) && g.leadsTo (k + 1) b xs

theorem pointsAfter_of_leadsTo {xs : List Float} (h : g.leadsTo k a xs = true) :
    g.pointsAfter k a = xs := by
  induction xs generalizing k a with
  | nil => exact pointsAfter_of_not_lt (of_decide_eq_false (Bool.not_eq_true' _ ▸ h))
  | cons b xs ih =>
    rw [leadsTo, Bool.and_eq_true, Bool.and_eq_true, decide_eq_true_eq, decide_eq_true_eq] at h
    obtain ⟨⟨ha, rfl⟩, hrest⟩ := h
    rw [pointsAfter_of_lt ha, ih hrest]

theorem points_of_leadsTo {xs : List Float} (h : g.leadsTo 0 g.lo xs = true) :
    g.points = g.lo :: xs := congrArg (List.cons g.lo) (pointsAfter_of_leadsTo h)

/-- One window from -1 to the negative zero. Its end is computed as -1 + 1. -/
def unitBelowZero : Grid := ⟨⟨⟨-1, -0.0⟩, rfl, rfl, by decide⟩, 1, rfl, by decide, by decide⟩

theorem points_unitBelowZero : unitBelowZero.points = [-1, 0.0] :=
  points_of_leadsTo (by decide +kernel)

end ZeroSearch.Grid
