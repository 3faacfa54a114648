import Mathlib
import ZeroSearch.Bracketing.Bisection
import ZeroSearch.Proofs.Binary64.Comparison
import ZeroSearch.Proofs.Binary64.Division
import ZeroSearch.Proofs.Binary64.Logarithm

/-!
# The halvings that a width needs

`bisectionBound` counts halvings by a logarithm, of a quotient that is rounded and then rounded
itself. The quotient does no harm, since it stays on its side of every power of two. The logarithm
does: just above a large power of two it is rounded onto a whole number, and the count is one short
(`sixteen_one_short`). It is never more than one short, the width is then within a few units of the
last digit of what the count is enough for, and everywhere else the count is the least that is
enough (`bisectionBound_counts`).
-/

namespace ZeroSearch

open Binary64

/-- `n` halvings bring `width` down to `target`, and fewer do not. -/
structure LeastHalvings (width target : ℚ) (n : Nat) : Prop where
  enough : width ≤ target * 2 ^ n
  least : 1 ≤ n → target * 2 ^ (n - 1) < width

/-- What the count `n` of halvings from `width` down to `target` is worth. It is that of a logarithm
rounded to the nearest float, it is right unless it has fallen below the quotient, and it is never
more than one short. -/
structure CountsHalvings (width target : Float) (n : Nat) : Prop where
  narrow : width ≤ target → n = 0
  logarithm : target < width →
    (∃ y, NearestFloat (Real.logb 2 (toRat (width / target))) y) ∧
      ∀ y, NearestFloat (Real.logb 2 (toRat (width / target))) y → (n : Int) = ⌈toRat y⌉
  right : toRat (width / target) ≤ 2 ^ n → LeastHalvings (toRat width) (toRat target) n
  short : 2 ^ n < toRat (width / target) →
    LeastHalvings (toRat width) (toRat target) (n + 1) ∧
      toRat width ≤ toRat target * 2 ^ n * (1 + n / 0x20000000000000)

section

variable {width target : Float} (hw : width.isFinite = true) (ht : target.isFinite = true)
  (hpos : 0 < target) (hq : (width / target).isFinite = true)

include hw ht hpos hq

theorem countsHalvings_of_le (hle : width ≤ target) : CountsHalvings width target 0 := by
  have hT := toRat_pos hpos
  have hside := two_pow_lt_div hw ht hT hq 0
  have hW : toRat width ≤ toRat target :=
    (toRat_le_toRat (not_isNaN_of_isFinite hw) (not_isNaN_of_isFinite ht)).2 hle
  rw [pow_zero, one_mul] at hside
  refine ⟨fun _ => rfl, fun hlt => absurd hle (Binary64.not_le_of_lt hlt), fun _ => ?_, fun h => ?_⟩
  · exact ⟨by rwa [pow_zero, mul_one], fun h => absurd h (by norm_num)⟩
  · rw [pow_zero] at h
    exact absurd (hside.1 h) hW.not_gt

theorem one_le_quotient (hlt : target < width) : 1 ≤ toRat (width / target) := by
  obtain ⟨n, -, hn, -⟩ := exists_level_two_pow 0
  have hW : toRat target < toRat width := toRat_lt_toRat hlt
  rw [pow_zero] at hn
  rw [← hn]
  exact le_div_of_le hw ht (toRat_pos hpos) hq (by rw [hn, one_mul]; exact hW.le)

/-- The quotient before rounding is at most half a step above. -/
theorem width_le_of_binade {k j : Nat} (h : Binade (width / target) k j)
    (hloss : absorbs k j = true) :
    toRat width ≤ toRat target * 2 ^ k * (1 + k / 0x20000000000000) := by
  have hT := toRat_pos hpos
  have habove := (div_nearest hw ht hT hq).above
  rw [h.next, ← toRat, h.toRat_eq] at habove
  have hsmall : (2 * j + 1 : ℚ) ≤ k := by exact_mod_cast two_mul_lt_of_absorbs hloss
  have hquot : toRat width / toRat target ≤ 2 ^ k * (1 + k / 0x20000000000000) :=
    calc toRat width / toRat target ≤ 2 ^ k * (1 + (2 * j + 1) / 0x20000000000000) := by linarith
      _ ≤ 2 ^ k * (1 + k / 0x20000000000000) := by gcongr
  rw [div_le_iff₀ hT] at hquot
  linarith

theorem countsHalvings_of_lt (hlt : target < width) :
    CountsHalvings width target (ceilLog2 (width / target)) := by
  have hT := toRat_pos hpos
  have hone := one_le_quotient hw ht hpos hq hlt
  have hside := two_pow_lt_div hw ht hT hq
  obtain ⟨k, j, h⟩ := exists_binade hq hone
  have hleast : 1 ≤ ceilLog2 (width / target) →
      toRat target * 2 ^ (ceilLog2 (width / target) - 1) < toRat width := fun hpos => by
    rw [mul_comm]
    exact (hside _).1 (h.two_pow_pred_lt hpos)
  refine ⟨fun hle => absurd hle (Binary64.not_le_of_lt hlt),
    fun _ => ⟨exists_nearestFloat _, fun y hy => ceilLog2_eq_ceil hq hone hy⟩,
    fun hright => ⟨?_, hleast⟩, fun hshort => ?_⟩
  · rw [mul_comm]
    exact not_lt.1 (mt (hside _).2 hright.not_gt)
  · obtain ⟨hn, hloss⟩ := h.absorbs_of_short hshort
    rw [hn] at hshort ⊢
    refine ⟨⟨?_, fun _ => ?_⟩, width_le_of_binade hw ht hpos hq h hloss⟩
    · rw [mul_comm]
      exact not_lt.1 (mt (hside _).2 h.lt_two_pow_succ.not_gt)
    · rw [Nat.add_sub_cancel, mul_comm]
      exact (hside k).1 hshort

end

/-- The bound is the least number of halvings that is enough, or one short of it where the logarithm
of the quotient has been rounded down onto a whole number. -/
theorem bisectionBound_counts {width target : Float} (hw : width.isFinite = true)
    (ht : target.isFinite = true) (hpos : 0 < target) (hq : (width / target).isFinite = true) :
    CountsHalvings width target (bisectionBound width target).toNat := by
  unfold bisectionBound
  rw [if_neg (not_not.2 hpos)]
  split
  · rename_i hle
    exact countsHalvings_of_le hw ht hpos hq hle
  · rename_i hle
    have hlt := lt_of_not_le (not_isNaN_of_isFinite hw) (not_isNaN_of_isFinite ht) hle
    obtain ⟨k, j, h⟩ := exists_binade hq (one_le_quotient hw ht hpos hq hlt)
    have hcount : (UInt64.ofNat (ceilLog2 (width / target))).toNat = ceilLog2 (width / target) := by
      have hk := h.k_le
      rw [UInt64.toNat_ofNat', h.ceilLog2_eq]
      split <;> omega
    rw [hcount]
    exact countsHalvings_of_lt hw ht hpos hq hlt

/-- From 10 down to 3 takes two halvings. -/
theorem bisectionBound_counts_from_ten :
    (10 : Float).isFinite = true ∧ (3 : Float).isFinite = true ∧ (0 : Float) < 3 ∧
      (10 / 3 : Float).isFinite = true ∧ bisectionBound 10 3 = 2 ∧
      LeastHalvings (toRat 10) (toRat 3) 2 := by
  have hw : (10 : Float).isFinite = true := by decide +kernel
  have ht : (3 : Float).isFinite = true := by decide +kernel
  have hpos : (0 : Float) < 3 := by decide +kernel
  have hq : (10 / 3 : Float).isFinite = true := by decide +kernel
  have hcount : bisectionBound 10 3 = 2 := by decide +kernel
  have hcounts := bisectionBound_counts hw ht hpos hq
  rw [hcount] at hcounts
  have hquot : toRat (10 / 3) ≤ toRat 4 :=
    (toRat_le_toRat (not_isNaN_of_isFinite hq) (by decide +kernel)).2 (by decide +kernel)
  have hfour : toRat 4 = 2 ^ 2 := by
    rw [toRat_of_whole (k := 4) (by decide +kernel) (by decide)]
    norm_num
  exact ⟨hw, ht, hpos, hq, hcount, hcounts.right (hfour ▸ hquot)⟩

/-- The float after 16 has a logarithm that is rounded to 4. -/
theorem sixteen_one_short :
    (Float.ofBits 0x4030000000000001).isFinite = true ∧ (1 : Float).isFinite = true ∧
      (0 : Float) < 1 ∧ (Float.ofBits 0x4030000000000001 / 1).isFinite = true ∧
      bisectionBound (Float.ofBits 0x4030000000000001) 1 = 4 ∧
      ¬ LeastHalvings (toRat (Float.ofBits 0x4030000000000001)) (toRat 1)
        (bisectionBound (Float.ofBits 0x4030000000000001) 1).toNat := by
  have hcount : bisectionBound (Float.ofBits 0x4030000000000001) 1 = 4 := by decide +kernel
  refine ⟨by decide +kernel, by decide +kernel, by decide +kernel, by decide +kernel, hcount,
    fun h => ?_⟩
  have hone : toRat 1 = 1 := toRat_of_whole (k := 1) (by decide +kernel) (by decide)
  have hord : ordinal (Float.ofBits 0x4030000000000001) =
      (-48 + 1074) * 0x10000000000000 + (0x10000000000001 : Nat) := by decide +kernel
  have henough := h.enough
  rw [hcount, hone, toRat, hord, level_eq (by norm_num) (by norm_num) fun _ => by norm_num,
    show (4 : UInt64).toNat = 4 from rfl] at henough
  norm_num at henough

end ZeroSearch
