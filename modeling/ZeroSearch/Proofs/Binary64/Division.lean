import Mathlib
import ZeroSearch.Proofs.Binary64.Arithmetic

/-!
# Quotients

Quotients of finite floats are the exact quotients rounded (`div_rounded`): mantissas are divided
with so many digits that the rounding has enough of them, and the remainder tells the accuracy.

No quotient is rounded onto a power of two from above (`two_pow_lt_div`). If `x` is more than
`2 ^ k * y`, it is at least the level after that number, and levels are so far apart that the
quotient is nearer to the float after `2 ^ k`.
-/

namespace ZeroSearch.Binary64

open Float.Model Float.Model.UnpackedFloat

/-! ## Division -/

theorem describes_quotient (n : Nat) {d : Nat} (hd : 0 < d) :
    Describes (.ofMantissaAndAccuracy (n / d) (accuracyOfFraction (n % d) d)) (n / d) := by
  have hpos : (0 : ℚ) < d := by exact_mod_cast hd
  have hdiv : (n : ℚ) / d = (n / d : Nat) + (n % d : Nat) / d := by
    have hn : ((d * (n / d) + n % d : Nat) : ℚ) = n := by rw [Nat.div_add_mod]
    rw [← hn]
    push_cast
    field_simp
  have hlt : ((n % d : Nat) : ℚ) / d < 1 := by
    rw [div_lt_one hpos]
    exact_mod_cast Nat.mod_lt n hd
  rw [hdiv]
  generalize n / d = c
  generalize n % d = r at hlt
  have hhalf : (r : ℚ) / d = (2 * r : Nat) / d / 2 := by
    push_cast
    ring
  unfold accuracyOfFraction
  by_cases hr : r = 0
  · rw [if_pos hr, hr]
    show _ = _
    simp
  rw [if_neg hr]
  have hrpos : (0 : ℚ) < r / d := by positivity
  obtain h | h | h := lt_trichotomy (2 * r) d
  · rw [Nat.compare_eq_lt.2 h]
    have : ((2 * r : Nat) : ℚ) / d < 1 := by rw [div_lt_one hpos]; exact_mod_cast h
    exact ⟨by linarith, by linarith⟩
  · rw [Nat.compare_eq_eq.2 h]
    have : ((2 * r : Nat) : ℚ) / d = 1 := by rw [h, div_self hpos.ne']
    show _ = _
    linarith
  · rw [Nat.compare_eq_gt.2 h]
    have : 1 < ((2 * r : Nat) : ℚ) / d := by rw [one_lt_div hpos]; exact_mod_cast h
    exact ⟨by linarith, by linarith⟩

theorem apply_div (s t : Sign) : (s / t).apply 1 = s.apply 1 * t.apply 1 := by
  cases s <;> cases t <;> rfl

/-- Division before packing. -/
theorem div_spec {u v : UnpackedFloat} (hu : Canonical u) (hv : Canonical v)
    (fu : u.isFinite = true) (fv : v.isFinite = true) (hv₀ : ordinalOf v ≠ 0) :
    IsRounding (level (ordinalOf u) / level (ordinalOf v)) (u.div .binary64 v) := by
  obtain ⟨t, rfl⟩ | ⟨t, n, d, hn, rfl⟩ := finite_cases fv
  · exact absurd rfl hv₀
  obtain ⟨s, rfl⟩ | ⟨s, m, e, hm, rfl⟩ := finite_cases fu
  · rw [show ordinalOf (.zero s) = 0 from rfl, level_zero, zero_div]
    exact isRounding_zero _
  -- The exponent to which the quotient is carried, and the digits that takes.
  obtain ⟨c, hc⟩ : ∃ c, c = min (e - d)
      (Format.binary64.targetExponent (totalExponent m e - totalExponent n d)) := ⟨_, rfl⟩
  obtain ⟨k, hk⟩ := Int.eq_ofNat_of_zero_le (a := e - d - c) (by omega)
  have hdiv : UnpackedFloat.div .binary64 (.finite s m e hm) (.finite t n d hn) =
      roundWithAccuracy .binary64 (s / t) ((m <<< k) / n) c
        (accuracyOfFraction ((m <<< k) % n) n) := by
    show roundWithAccuracy _ _ (divCore _ m e n d).1 (divCore _ m e n d).2.1
      (divCore _ m e n d).2.2 = _
    unfold divCore
    dsimp only
    rw [← hc, hk]
    rfl
  have hlong : c ≤ Format.binary64.targetExponent (totalExponent ((m <<< k) / n) c) := by
    rw [targetExponent_eq, totalExponent, totalExponent] at hc
    rw [targetExponent_eq, totalExponent]
    by_cases hleast : c ≤ -1074
    · omega
    have hdigits : 0x10000000000000 ≤ (m <<< k) / n := by
      rw [Nat.le_div_iff_mul_le hn, Nat.shiftLeft_eq]
      calc 0x10000000000000 * n ≤ 2 ^ 52 * 2 ^ (n.log2 + 1) :=
            Nat.mul_le_mul_left _ Nat.lt_log2_self.le
        _ = 2 ^ (n.log2 + 53) := by rw [← pow_add]; congr 1; omega
        _ ≤ 2 ^ (m.log2 + k) := Nat.pow_le_pow_right (by norm_num) (by omega)
        _ = 2 ^ m.log2 * 2 ^ k := pow_add ..
        _ ≤ m * 2 ^ k := Nat.mul_le_mul_right _ (Nat.log2_self_le hm.ne')
    have hlog := log2_le_log2 hdigits
    rw [show (0x10000000000000 : Nat).log2 = 52 by decide] at hlog
    omega
  have hquot : (m : ℚ) * 2 ^ e / (n * 2 ^ d) / 2 ^ c = (m <<< k : Nat) / n := by
    have hn' : (n : ℚ) ≠ 0 := by exact_mod_cast hn.ne'
    have he : e = k + d + c := by omega
    rw [Nat.shiftLeft_eq, he, zpow_add₀ (by norm_num), zpow_add₀ (by norm_num), zpow_natCast]
    push_cast
    field_simp
  have hround := roundWithAccuracy_spec (s / t) (hquot ▸ describes_quotient (m <<< k) hn) hlong
  have hsigns : ((s.apply m : Int) : ℚ) * 2 ^ e / ((t.apply n : Int) * 2 ^ d) =
      ((s / t).apply 1 : Int) * (m * 2 ^ e / (n * 2 ^ d)) := by
    rw [apply_div, apply_eq s m, apply_eq t n]
    cases s <;> cases t <;> simp [Sign.apply, neg_div, div_neg]
  rw [level_ordinalOf hu, level_ordinalOf hv, hsigns, hdiv]
  exact hround

theorem div_rounded {x y : Float} (hx : x.isFinite = true) (hy : y.isFinite = true)
    (hy₀ : ordinal y ≠ 0) : Rounded (toRat x / toRat y) (x / y) :=
  .of_unpacked (div_spec (canonical_float x) (canonical_float y) hx hy hy₀)

/-! ## Powers of two -/

theorem exists_level_double {n : Int} (h : 0 ≤ n) : ∃ m, 0 ≤ m ∧ level m = 2 * level n := by
  lift n to Nat using h
  by_cases hsmall : n ≤ 0x10000000000000
  · refine ⟨(2 * n : Nat), Int.natCast_nonneg _, ?_⟩
    rw [level_of_le (by omega), level_of_le (by omega), Nat.cast_mul, Nat.cast_ofNat, mul_assoc]
  · obtain ⟨e, m, hn, he, hm, hlead⟩ : ∃ (e : Int) (m : Nat),
        (n : Int) = (e + 1074) * 0x10000000000000 + m ∧ -1074 ≤ e ∧ m ≤ 0x20000000000000 ∧
          0x10000000000000 ≤ m :=
      ⟨(n / 0x10000000000000 : Nat) - 1075, n % 0x10000000000000 + 0x10000000000000, by omega,
        by omega, by omega, by omega⟩
    refine ⟨(e + 1 + 1074) * 0x10000000000000 + m, by omega, ?_⟩
    rw [hn, level_eq (by omega) hm fun _ => hlead, level_eq he hm fun _ => hlead,
      zpow_add_one₀ (by norm_num)]
    ring

theorem exists_level_mul_two_pow {n : Int} (h : 0 ≤ n) (k : Nat) :
    ∃ m, 0 ≤ m ∧ level m = 2 ^ k * level n := by
  induction k with
  | zero => exact ⟨n, h, by ring⟩
  | succ k ih =>
    obtain ⟨m, hm, hlevel⟩ := ih
    obtain ⟨l, hl, hdouble⟩ := exists_level_double hm
    exact ⟨l, hl, by rw [hdouble, hlevel]; ring⟩

/-- No mantissa has more than 53 digits. -/
theorem level_lt_mul_rise {n : Int} (h : 0 ≤ n) : level n < 0x20000000000000 * rise n := by
  lift n to Nat using h
  have hm : ((n : Int) - (exponentAt n + 1074) * 0x10000000000000 : Int) <
      (0x20000000000000 : ℚ) := by
    have hlt : (n : Int) - (exponentAt n + 1074) * 0x10000000000000 < 0x20000000000000 := by
      unfold exponentAt
      omega
    exact_mod_cast hlt
  rw [level_natCast, rise_natCast, magnitude]
  exact mul_lt_mul_of_pos_right hm (gap_pos n)

/-- The float that stands for `2 ^ k`, and the spacing there. -/
theorem exists_level_two_pow (k : Nat) :
    ∃ n : Int, 0 ≤ n ∧ level n = 2 ^ k ∧ level (n + 1) = 2 ^ k + 2 ^ k / 0x10000000000000 := by
  have hpow : (2 : ℚ) ^ ((k : Int) - 52) = 2 ^ k / 0x10000000000000 := by
    rw [zpow_sub₀ (by norm_num), zpow_natCast]
    norm_num
  refine ⟨((k : Int) - 52 + 1074) * 0x10000000000000 + (0x10000000000000 : Nat), by omega, ?_, ?_⟩
  · rw [level_eq (by omega) (by norm_num) fun _ => le_rfl, hpow]
    push_cast
    ring
  · rw [Int.add_assoc, show ((0x10000000000000 : Nat) : Int) + 1 = (0x10000000000001 : Nat) from rfl,
      level_eq (by omega) (by norm_num) fun _ => by norm_num, hpow]
    push_cast
    ring

section

variable {x y : Float} (hx : x.isFinite = true) (hy : y.isFinite = true) (hpos : 0 < toRat y)
  (hq : (x / y).isFinite = true)
include hx hy hpos hq

theorem div_nearest : Nearest (toRat x / toRat y) (ordinal (x / y)) := by
  refine (div_rounded hx hy fun hzero => ?_).nearest hq
  rw [toRat, hzero, level_zero] at hpos
  exact lt_irrefl 0 hpos

theorem le_div_of_le {n : Int} (h : level n * toRat y ≤ toRat x) : level n ≤ toRat (x / y) :=
  level_le_level.2 ((div_nearest hx hy hpos hq).le_of_level_le ((le_div_iff₀ hpos).2 h))

theorem div_le_of_le {n : Int} (h : toRat x ≤ level n * toRat y) : toRat (x / y) ≤ level n :=
  level_le_level.2 ((div_nearest hx hy hpos hq).le_of_le_level ((div_le_iff₀ hpos).2 h))

/-- A quotient and its rounding are on the same side of every power of two. -/
theorem two_pow_lt_div (k : Nat) : 2 ^ k < toRat (x / y) ↔ 2 ^ k * toRat y < toRat x := by
  obtain ⟨p, hp, hlevel, hsucc⟩ := exists_level_two_pow k
  constructor
  · intro h
    by_contra hle
    rw [← hlevel, not_lt] at hle
    exact absurd h (not_lt.2 (hlevel ▸ div_le_of_le hx hy hpos hq hle))
  · intro h
    have hnonneg : 0 ≤ ordinal y := (level_lt_level.1 (level_zero ▸ hpos)).le
    obtain ⟨m, hm, hmul⟩ : ∃ m, 0 ≤ m ∧ level m = 2 ^ k * toRat y :=
      exists_level_mul_two_pow hnonneg k
    -- `x` is not below the level after `2 ^ k * y`.
    have hnext : level (m + 1) ≤ toRat x := by
      have hlt : m < ordinal x := level_lt_level.1 (hmul ▸ h)
      exact level_le_level.2 hlt
    have hrise := level_lt_mul_rise hm
    rw [rise, hmul] at hrise
    have hquot : 2 ^ k + 2 ^ k / 0x20000000000000 < toRat x / toRat y := by
      rw [lt_div_iff₀ hpos]
      linarith
    have habove := (div_nearest hx hy hpos hq).above
    by_contra hle
    have hle' : ordinal (x / y) ≤ p := level_le_level.1 (hlevel ▸ not_lt.1 hle)
    have hle'' : level (ordinal (x / y) + 1) ≤ level (p + 1) := level_le_level.2 (by omega)
    have hlow := not_lt.1 hle
    rw [toRat] at hlow
    linarith

end

end ZeroSearch.Binary64
