import Mathlib
import ZeroSearch.Proofs.Binary64.Comparison
import ZeroSearch.Proofs.Midpoint

/-!
# Halving

Where a float lies strictly between the ends, so does the midpoint (`ordinal_midpoint_between`). The
rounded half of the rounded width is between one and two thirds of the exact width (`half_between`),
and the step next to an end is never more than two thirds of it, because the step beyond is at least
half as long. Where it is two thirds, halfway between the end and its neighbour is rounded to the
neighbour, which is the even one.

The midpoint depends on the ends as numbers only (`ordinal_midpoint_congr`).
-/

namespace ZeroSearch

open Binary64

/-! ## Thirds -/

/-- Three units are halved to two, because two is even. -/
theorem half_of_few_units {j : Nat} {m : Int} (hj : 2 ≤ j) (hj' : j ≤ 8)
    (hm : Nearest (j * quantum / 2) m) :
    j * quantum < 3 * level m ∧ 3 * level m ≤ 2 * (j * quantum) := by
  have hq := quantum_pos
  have hlow : (2 : ℚ) ≤ j := by exact_mod_cast hj
  have hhigh : (j : ℚ) ≤ 8 := by exact_mod_cast hj'
  rw [mul_div_right_comm] at hm
  have hm₁ : (1 : Nat) ≤ m := hm.le_of_level_le (by
    rw [level_of_le (by norm_num)]
    exact mul_le_mul_of_nonneg_right (by push_cast; linarith) hq.le)
  have hm₄ : m ≤ (4 : Nat) := hm.le_of_le_level (by
    rw [level_of_le (by norm_num)]
    exact mul_le_mul_of_nonneg_right (by push_cast; linarith) hq.le)
  obtain ⟨k, hk⟩ := Int.eq_ofNat_of_zero_le (a := m - 1) (by omega)
  obtain rfl : m = (k + 1 : Nat) := by omega
  obtain ⟨h₁, h₂, h₃⟩ := hm.of_units (by omega)
  rw [mul_div_cancel₀ _ (by norm_num)] at h₁ h₂ h₃
  have h₁' : 2 * k + 1 ≤ j := by exact_mod_cast h₁
  have h₂' : j ≤ 2 * k + 3 := by exact_mod_cast h₂
  have h₃' : Even k → 2 * k + 1 < j ∧ j < 2 * k + 3 := by exact_mod_cast h₃
  have hthirds : j < 3 * (k + 1) ∧ 3 * (k + 1) ≤ 2 * j := by
    rw [Nat.even_iff] at h₃'
    omega
  have hlt : (j : ℚ) < 3 * (k + 1 : Nat) := by exact_mod_cast hthirds.1
  have hle : 3 * ((k + 1 : Nat) : ℚ) ≤ 2 * j := by exact_mod_cast hthirds.2
  rw [level_of_le (by omega), ← mul_assoc, ← mul_assoc]
  exact ⟨mul_lt_mul_of_pos_right hlt hq, mul_le_mul_of_nonneg_right hle hq.le⟩

/-- Half of a rounded width of at least two units, itself rounded, takes between one and two thirds
of the width. -/
theorem half_between {j : Nat} {n m : Int} (hj : 2 ≤ j) (hn : Nearest (j * quantum) n)
    (hm : Nearest (level n / 2) m) :
    j * quantum < 3 * level m ∧ 3 * level m ≤ 2 * (j * quantum) := by
  have hq := quantum_pos
  by_cases hj₈ : j ≤ 8
  · have hlevel : level j = j * quantum := level_of_le (by omega)
    obtain rfl : n = j := hn.unique (hlevel ▸ nearest_level j)
    rw [hlevel] at hm
    exact half_of_few_units hj hj₈ hm
  · -- From four units on a rounding error is at most an eighth.
    have hj' : ((8 : Nat) : ℚ) ≤ j := by exact_mod_cast (by omega : 8 ≤ j)
    have hn₈ : (8 : Nat) ≤ n := hn.le_of_level_le (by
      rw [level_of_le (by norm_num)]
      exact mul_le_mul_of_nonneg_right hj' hq.le)
    have hm₄ : (4 : Nat) ≤ m := hm.le_of_level_le (by
      have hlevel := level_le_level.2 hn₈
      rw [level_of_le (by norm_num)] at hlevel ⊢
      push_cast at hlevel ⊢
      linarith)
    have hpos : 0 < j * quantum := mul_pos (by exact_mod_cast (by omega : 0 < j)) hq
    obtain ⟨h₁, h₂⟩ := hn.close (by omega)
    obtain ⟨h₃, h₄⟩ := hm.close (by omega)
    constructor <;> linarith

/-- What lies between one and two thirds of the way from one level to another is rounded to a level
strictly between them, if there is one. -/
theorem between_of_thirds {a b n : Int} {h : ℚ} (hab : a + 2 ≤ b) (hlow : level b - level a < 3 * h)
    (hhigh : 3 * h ≤ 2 * (level b - level a)) (hn : Nearest (level a + h) n) : a < n ∧ n < b := by
  have hab' : level (a + 2) ≤ level b := level_le_level.2 hab
  have hab'' : level a ≤ level (b - 2) := level_le_level.2 (by omega)
  constructor
  · -- The step from `a` is at most twice the next one, so at most two thirds of the way.
    by_contra hle
    have h₁ : level n ≤ level a := level_le_level.2 (by omega)
    have h₂ : level (n + 1) ≤ level (a + 1) := level_le_level.2 (by omega)
    have h₃ := rise_le_double a
    have h₄ := hn.above
    rw [rise, rise, show a + 1 + 1 = a + 2 by omega] at h₃
    linarith
  · by_contra hle
    have h₁ : level b ≤ level n := level_le_level.2 (by omega)
    have h₂ : level (b - 1) ≤ level (n - 1) := level_le_level.2 (by omega)
    have h₃ := rise_succ (b - 2)
    have h₄ := hn.below
    rw [show b - 2 + 1 = b - 1 by omega, rise, rise, show b - 1 + 1 = b by omega,
      show b - 2 + 1 = b - 1 by omega] at h₃
    have hlt : level (b - 1) < level b := level_lt_level.2 (by omega)
    have hlt' : level (b - 2) < level (b - 1) := level_lt_level.2 (by omega)
    rcases h₃ with h₃ | ⟨h₃, heven⟩
    · linarith
    · -- Exactly two thirds: a tie between `b - 1`, which is even, and `b`.
      obtain rfl : n = b := level_inj.1 (by linarith)
      have hodd : ¬ Even n := by
        rw [Int.even_iff] at heven ⊢
        omega
      linarith [(hn.strict hodd).1]

/-! ## Halves -/

/-- Half of the least positive float is rounded to zero, which is the even one. -/
theorem Binary64.Nearest.half_lt {n m : Int} (hn : 0 < n) (h : Nearest (level n / 2) m) :
    m < n := by
  by_contra hle
  have h₁ : level n ≤ level m := level_le_level.2 (by omega)
  have h₂ : level (n - 1) ≤ level (m - 1) := level_le_level.2 (by omega)
  have h₃ : level 0 ≤ level (n - 1) := level_le_level.2 (by omega)
  have h₄ := h.below
  rw [level_zero] at h₃
  have hn₁ : level (n - 1) = level 0 := by
    rw [level_zero]
    linarith
  obtain rfl : n = 1 := by
    have := level_inj.1 hn₁
    omega
  obtain rfl : m = 1 := level_inj.1 (by linarith)
  linarith [(h.strict (by decide)).1]

section
variable {x lo hi : Float}

theorem half_lt (hx : x.isFinite = true) (h : 0 < toRat x) : toRat (x * 0.5) < toRat x := by
  have hpos : 0 < ordinal x := level_lt_level.1 (by rwa [level_zero])
  have hr := (half_rounded hx).nearest (half_nonneg hx h.le).2.2
  exact level_lt_level.2 (hr.half_lt hpos)

theorem lt_half (hx : x.isFinite = true) (h : toRat x < 0) : toRat x < toRat (x * 0.5) := by
  have hneg : 0 < -ordinal x := by
    have : ordinal x < 0 := level_lt_level.1 (by rwa [level_zero])
    omega
  have hr := (half_rounded hx).nearest (half_nonpos hx h.le).2.2
  have hr' : Nearest (level (-ordinal x) / 2) (-ordinal (x * 0.5)) := by
    have := hr.neg
    rwa [toRat, ← neg_div, ← level_neg] at this
  have := hr'.half_lt hneg
  exact level_lt_level.2 (by omega)

/-! ## The midpoint -/

theorem exists_units_of_two_steps (h : ordinal lo + 2 ≤ ordinal hi) :
    ∃ j : Nat, 2 ≤ j ∧ toRat hi - toRat lo = j * quantum := by
  obtain ⟨a, ha⟩ := exists_level_eq (ordinal lo)
  obtain ⟨b, hb⟩ := exists_level_eq (ordinal hi)
  have hq := quantum_pos
  have h₁ := quantum_le_level_sub (m := ordinal lo) (n := ordinal lo + 1) (by omega)
  have h₂ := quantum_le_level_sub (m := ordinal lo + 1) (n := ordinal hi) (by omega)
  have hab : ((2 : Int) : ℚ) ≤ (b - a : Int) := by
    refine le_of_mul_le_mul_right ?_ hq
    push_cast
    linarith
  have hab' : 2 ≤ b - a := by exact_mod_cast hab
  refine ⟨(b - a).toNat, by omega, ?_⟩
  have hcast : (((b - a).toNat : Nat) : ℚ) = ((b - a : Int) : ℚ) := by
    exact_mod_cast Int.toNat_of_nonneg (by omega : 0 ≤ b - a)
  rw [toRat, toRat, ha, hb, hcast]
  push_cast
  ring

variable (hlo : lo.isFinite = true) (hhi : hi.isFinite = true)
include hlo hhi

theorem ordinal_midpoint_between (h : ordinal lo + 2 ≤ ordinal hi) :
    ordinal lo < ordinal (midpoint lo hi) ∧ ordinal (midpoint lo hi) < ordinal hi := by
  have hle : toRat lo ≤ toRat hi := level_le_level.2 (by omega)
  unfold midpoint
  dsimp only
  by_cases hw : (hi - lo).isFinite = true
  · rw [if_pos hw]
    obtain ⟨j, hj, hwidth⟩ := exists_units_of_two_steps h
    obtain ⟨-, -, hfin⟩ := half_nonneg hw (width_nonneg hlo hhi hle)
    have hn := (sub_rounded hhi hlo).nearest hw
    have hm := (half_rounded hw).nearest hfin
    rw [hwidth] at hn
    obtain ⟨hlow, hhigh⟩ := half_between hj hn hm
    rw [← hwidth] at hlow hhigh
    obtain ⟨n, hn, hord⟩ := (add_rounded hlo hfin).near
    obtain ⟨h₁, h₂⟩ := between_of_thirds h hlow hhigh hn
    have hclo := clamp_ordinal lo
    have hchi := clamp_ordinal hi
    unfold clamp at hord hclo hchi
    omega
  · rw [if_neg hw]
    obtain ⟨slo, shi⟩ := signs_of_width_overflow hlo hhi hle (Bool.eq_false_iff.2 hw)
    obtain ⟨-, hl₂, hl₃⟩ := half_nonpos hlo slo.le
    obtain ⟨hh₁, -, hh₃⟩ := half_nonneg hhi shi.le
    have hr := add_rounded hl₃ hh₃
    have h₁ := level_lt_level.1 (lt_half hlo slo)
    have h₂ := level_lt_level.1 (half_lt hhi shi)
    have h₃ := ordinal_le_of_le (hr.float_le (not_isNaN_of_isFinite hl₃) (by linarith))
    have h₄ := ordinal_le_of_le (hr.le_float (not_isNaN_of_isFinite hh₃) (by linarith))
    omega

end

/-! ## Ends as numbers -/

theorem ordinal_half_congr {x y : Float} (hx : x.isFinite = true) (hy : y.isFinite = true)
    (h : ordinal x = ordinal y) : ordinal (x * 0.5) = ordinal (y * 0.5) := by
  have hr := half_rounded hx
  rw [toRat_eq_of_ordinal_eq h] at hr
  exact hr.ordinal_eq (half_rounded hy)

theorem half_isFinite {x : Float} (hx : x.isFinite = true) : (x * 0.5).isFinite = true := by
  rcases le_total 0 (toRat x) with h | h
  · exact (half_nonneg hx h).2.2
  · exact (half_nonpos hx h).2.2

theorem ordinal_midpoint_congr {a b c d : Float} (ha : a.isFinite = true) (hb : b.isFinite = true)
    (hc : c.isFinite = true) (hd : d.isFinite = true) (hac : ordinal a = ordinal c)
    (hbd : ordinal b = ordinal d) : ordinal (midpoint a b) = ordinal (midpoint c d) := by
  have hr := sub_rounded hb ha
  have hr' := sub_rounded hd hc
  rw [toRat_eq_of_ordinal_eq hac, toRat_eq_of_ordinal_eq hbd] at hr
  have hwidth := hr.ordinal_eq hr'
  have hfin := isFinite_eq_of_ordinal_eq hr.not_nan hr'.not_nan hwidth
  unfold midpoint
  dsimp only
  rw [hfin]
  split
  · rename_i hw
    have hw' := hfin.trans hw
    exact ordinal_add_congr ha (half_isFinite hw') hc (half_isFinite hw) hac
      (ordinal_half_congr hw' hw hwidth)
  · exact ordinal_add_congr (half_isFinite ha) (half_isFinite hb) (half_isFinite hc)
      (half_isFinite hd) (ordinal_half_congr ha hc hac) (ordinal_half_congr hb hd hbd)

end ZeroSearch
