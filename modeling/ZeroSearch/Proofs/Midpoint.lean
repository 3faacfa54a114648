import Mathlib
import ZeroSearch.Interval
import ZeroSearch.Proofs.Binary64.Arithmetic

/-!
# The midpoint

The midpoint of finite ends is between them (`le_midpoint`, `midpoint_le`). Halving a float may be
inexact at the lower end of the range, and the width of the interval may have been rounded up
before. Still half the rounded width is never more than the exact one (`half_width_le`). Where the
width overflows, the ends have opposite signs, and each half lies between zero and its end.
-/

namespace ZeroSearch

open Binary64

/-! ## Halves -/

theorem toRat_half : toRat 0.5 = 1 / 2 := by
  have hord : ordinal 0.5 = (-53 + 1074) * 0x10000000000000 + (0x10000000000000 : Nat) := by rfl
  rw [toRat, hord, level_eq (by decide) (by decide) fun _ => le_rfl]
  norm_num

section
variable {x lo hi : Float}

theorem half_rounded (hx : x.isFinite = true) : Rounded (toRat x / 2) (x * 0.5) := by
  have h := mul_rounded (y := 0.5) hx rfl
  rwa [toRat_half, mul_one_div] at h

theorem toRat_le_of_ordinal_le {n : Int} (h : ordinal x ≤ n) : toRat x ≤ level n :=
  level_le_level.2 h

/-- Half of a nonnegative float. -/
theorem half_nonneg (hx : x.isFinite = true) (h : 0 ≤ toRat x) :
    0 ≤ toRat (x * 0.5) ∧ toRat (x * 0.5) ≤ toRat x ∧ (x * 0.5).isFinite = true := by
  have hr := half_rounded hx
  have h₀ := hr.le_ordinal (n := 0) (by rw [level_zero]; linarith) rfl
  have h₁ := hr.ordinal_le (n := ordinal x) (by show _ ≤ toRat x; linarith) (clamp_ordinal x)
  have hfin := isFinite_iff_ordinal.1 hx
  refine ⟨by simpa [toRat] using level_le_level.2 h₀, level_le_level.2 h₁, ?_⟩
  exact isFinite_iff_ordinal.2 ⟨hr.not_nan, by omega, by omega⟩

/-- Half of a float that is not positive. -/
theorem half_nonpos (hx : x.isFinite = true) (h : toRat x ≤ 0) :
    toRat x ≤ toRat (x * 0.5) ∧ toRat (x * 0.5) ≤ 0 ∧ (x * 0.5).isFinite = true := by
  have hr := half_rounded hx
  have h₀ := hr.ordinal_le (n := 0) (by rw [level_zero]; linarith) rfl
  have h₁ := hr.le_ordinal (n := ordinal x) (by show toRat x ≤ _; linarith) (clamp_ordinal x)
  have hfin := isFinite_iff_ordinal.1 hx
  refine ⟨level_le_level.2 h₁, by simpa [toRat] using level_le_level.2 h₀, ?_⟩
  exact isFinite_iff_ordinal.2 ⟨hr.not_nan, by omega, by omega⟩

/-! ## Widths -/

variable (hlo : lo.isFinite = true) (hhi : hi.isFinite = true) (hle : toRat lo ≤ toRat hi)
include hlo hhi hle

theorem width_nonneg : 0 ≤ toRat (hi - lo) := by
  have h := (sub_rounded hhi hlo).le_ordinal (n := 0) (by simpa using hle) rfl
  simpa [toRat] using level_le_level.2 h

theorem half_width_le (hw : (hi - lo).isFinite = true) :
    toRat ((hi - lo) * 0.5) ≤ toRat hi - toRat lo := by
  have hd : 0 ≤ toRat hi - toRat lo := by linarith
  have hn := (sub_rounded hhi hlo).nearest hw
  have hr := half_rounded hw
  have hclamp := clamp_ordinal (hi - lo)
  rw [toRat] at hr
  generalize ordinal (hi - lo) = n at hn hr hclamp
  obtain hn₀ | rfl | hn₂ : n ≤ 0 ∨ n = 1 ∨ 2 ≤ n := by omega
  · have h₁ : level n ≤ 0 := by simpa using level_le_level.2 hn₀
    have h₂ := hr.ordinal_le (n := 0) (by rw [level_zero]; linarith) rfl
    have h₃ : toRat ((hi - lo) * 0.5) ≤ 0 := by simpa using toRat_le_of_ordinal_le h₂
    linarith
  · have h₁ := hr.ordinal_le (n := 1) (by rw [level_one]; linarith [quantum_pos]) hclamp
    have h₂ := toRat_le_of_ordinal_le h₁
    have h₃ := hn.below
    rw [show (1 : Int) - 1 = 0 by rfl, level_zero, level_one] at h₃
    rw [level_one] at h₂
    have h₄ : quantum ≤ toRat hi - toRat lo :=
      quantum_le_level_sub (level_lt_level.1 (by rw [← toRat, ← toRat]; linarith [quantum_pos]))
    linarith
  · have h₁ := level_succ_le_double (n := n - 1) (by omega)
    rw [Int.sub_add_cancel] at h₁
    have h₂ := hr.ordinal_le (n := n - 1) (by linarith) (by unfold clamp at hclamp ⊢; omega)
    have h₃ := toRat_le_of_ordinal_le h₂
    have h₄ := hn.below
    have h₅ := level_lt_succ (n - 1)
    rw [Int.sub_add_cancel] at h₅
    linarith

/-- Only ends of opposite signs are too far apart. -/
theorem signs_of_width_overflow (hw : (hi - lo).isFinite = false) :
    toRat lo < 0 ∧ 0 < toRat hi := by
  have hr := sub_rounded hhi hlo
  have h₀ := hr.le_ordinal (n := 0) (by simpa using hle) rfl
  have flo := isFinite_iff_ordinal.1 hlo
  have fhi := isFinite_iff_ordinal.1 hhi
  have hbig : ¬ ordinal (hi - lo) < 0x7ff0000000000000 := fun h => by
    rw [isFinite_iff_ordinal.2 ⟨hr.not_nan, by omega, h⟩] at hw
    cases hw
  constructor
  · by_contra h
    have := hr.ordinal_le (n := ordinal hi) (by show _ ≤ toRat hi; linarith) (clamp_ordinal hi)
    omega
  · by_contra h
    have := hr.ordinal_le (n := -ordinal lo) (by rw [level_neg]; show _ ≤ -toRat lo; linarith)
      (by unfold clamp; omega)
    omega

/-! ## The midpoint -/

theorem midpoint_between :
    (midpoint lo hi).isNaN = false ∧ lo ≤ midpoint lo hi ∧ midpoint lo hi ≤ hi := by
  have nlo := not_isNaN_of_isFinite hlo
  have nhi := not_isNaN_of_isFinite hhi
  unfold midpoint
  dsimp only
  by_cases hw : (hi - lo).isFinite = true
  · rw [if_pos hw]
    obtain ⟨h₀, -, hfin⟩ := half_nonneg hw (width_nonneg hlo hhi hle)
    have hr := add_rounded hlo hfin
    have hhalf := half_width_le hlo hhi hle hw
    exact ⟨hr.not_nan, hr.float_le nlo (by linarith), hr.le_float nhi (by linarith)⟩
  · rw [if_neg hw]
    obtain ⟨slo, shi⟩ := signs_of_width_overflow hlo hhi hle (Bool.eq_false_iff.2 hw)
    obtain ⟨hl₁, hl₂, hl₃⟩ := half_nonpos hlo slo.le
    obtain ⟨hh₁, hh₂, hh₃⟩ := half_nonneg hhi shi.le
    have hr := add_rounded hl₃ hh₃
    exact ⟨hr.not_nan, hr.float_le nlo (by linarith), hr.le_float nhi (by linarith)⟩

end

section
variable {lo hi : Float} (hlo : lo.isFinite = true) (hhi : hi.isFinite = true) (hle : lo ≤ hi)
include hlo hhi hle

theorem le_midpoint : lo ≤ midpoint lo hi :=
  (midpoint_between hlo hhi ((toRat_le_toRat (not_isNaN_of_isFinite hlo)
    (not_isNaN_of_isFinite hhi)).2 hle)).2.1

theorem midpoint_le : midpoint lo hi ≤ hi :=
  (midpoint_between hlo hhi ((toRat_le_toRat (not_isNaN_of_isFinite hlo)
    (not_isNaN_of_isFinite hhi)).2 hle)).2.2

end

end ZeroSearch
