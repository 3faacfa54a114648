import Mathlib
import ZeroSearch.Binary64.Logarithm
import ZeroSearch.Proofs.Binary64.Arithmetic

/-!
# Rounded logarithms

`ceilLog2 q` is the least integer not below `y`, for every float `y` that is nearest to the binary
logarithm of `q` (`ceilLog2_eq_ceil`). The logarithm of `2 ^ k * (1 + j / 2 ^ 52)` exceeds `k` by
about `j / (2 ^ 52 * log 2)`, and `y` is `k` if that is less than half the spacing of floats at `k`.
The term of second order in `j` is so small that an estimate of `log 2` to nine digits decides it.
-/

namespace ZeroSearch.Binary64

open Float.Model Float.Model.UnpackedFloat

/-! ## Floats nearest to a real number -/

structure NearestFloat (x : ℝ) (y : Float) : Prop where
  finite : y.isFinite = true
  le : ∀ z : Float, z.isFinite = true → |x - toRat y| ≤ |x - toRat z|

theorem exists_finite_level {n : Int} (hlow : -0x7ff0000000000000 < n)
    (hhigh : n < 0x7ff0000000000000) : ∃ z : Float, z.isFinite = true ∧ toRat z = level n := by
  obtain ⟨z, hz, hord⟩ := exists_ordinal_eq n
  have hn : ordinal z = n := by
    unfold clamp at hord
    omega
  exact ⟨z, isFinite_iff_ordinal.2 ⟨hz, by omega, by omega⟩, congrArg level hn⟩

theorem exists_nearestFloat (x : ℝ) : ∃ y, NearestFloat x y := by
  obtain ⟨n, hn, hmin⟩ := Finset.exists_min_image
    (Finset.Ioo (-0x7ff0000000000000) 0x7ff0000000000000) (fun n : Int => |x - level n|)
    ⟨0, Finset.mem_Ioo.2 ⟨by norm_num, by norm_num⟩⟩
  obtain ⟨hlow, hhigh⟩ := Finset.mem_Ioo.1 hn
  obtain ⟨y, hy, hlevel⟩ := exists_finite_level hlow hhigh
  refine ⟨y, hy, fun z hz => ?_⟩
  have hord := isFinite_iff_ordinal.1 hz
  rw [hlevel]
  exact hmin (ordinal z) (Finset.mem_Ioo.2 ⟨hord.2.1, hord.2.2⟩)

/-! ## Spacing at whole numbers -/

/-- The distance from `k` to the next float. -/
def spacing (k : Nat) : ℚ := if k = 0 then quantum else 2 ^ k.log2 / 0x10000000000000

theorem spacing_pos (k : Nat) : 0 < spacing k := by
  unfold spacing
  split
  · exact quantum_pos
  · positivity

theorem spacing_le (k : Nat) : spacing k ≤ 2 ^ k.log2 / 0x10000000000000 := by
  unfold spacing
  split
  · calc quantum ≤ 2 ^ (-52 : Int) := zpow_le_zpow_right₀ (by norm_num) (by norm_num)
      _ = 1 / 0x10000000000000 := by norm_num
      _ ≤ 2 ^ k.log2 / 0x10000000000000 := by gcongr; exact one_le_pow₀ (by norm_num)
  · exact le_rfl

theorem exists_level_spacing {k : Nat} (hk : k ≤ 1024) :
    ∃ n : Int, 0 ≤ n ∧ n + 1 < 0x7ff0000000000000 ∧ level n = k ∧
      level (n + 1) = k + spacing k := by
  unfold spacing
  split
  · rename_i hzero
    subst hzero
    exact ⟨0, le_rfl, by norm_num, by simp, by simp [level_one]⟩
  rename_i hpos
  have hlog : k.log2 ≤ 10 := log2_le_log2 hk
  obtain ⟨c, hc⟩ : ∃ c, k.log2 + c = 52 := ⟨52 - k.log2, by omega⟩
  have hlead : 0x10000000000000 ≤ k * 2 ^ c :=
    calc 0x10000000000000 = 2 ^ k.log2 * 2 ^ c := by rw [← pow_add, hc]; norm_num
      _ ≤ k * 2 ^ c := Nat.mul_le_mul_right _ (Nat.log2_self_le hpos)
  have hlt : k * 2 ^ c < 0x20000000000000 :=
    calc k * 2 ^ c < 2 ^ (k.log2 + 1) * 2 ^ c :=
          Nat.mul_lt_mul_of_pos_right Nat.lt_log2_self (by positivity)
      _ = 2 ^ 53 := by rw [← pow_add]; congr 1; omega
      _ = 0x20000000000000 := by norm_num
  have hcancel : (2 : ℚ) ^ c * 2 ^ (-(c : Int)) = 1 := by
    rw [← zpow_natCast, ← zpow_add₀ (by norm_num), add_neg_cancel, zpow_zero]
  have hunit : (2 : ℚ) ^ (-(c : Int)) = 2 ^ k.log2 / 0x10000000000000 := by
    have hfull : (0x10000000000000 : ℚ) = 2 ^ k.log2 * 2 ^ c := by rw [← pow_add, hc]; norm_num
    rw [hfull, zpow_neg, zpow_natCast]
    field_simp
  refine ⟨(-(c : Int) + 1074) * 0x10000000000000 + (k * 2 ^ c : Nat), by omega, by omega, ?_, ?_⟩
  · rw [level_eq (by omega) hlt.le fun _ => hlead]
    push_cast
    rw [mul_assoc, hcancel, mul_one]
  · rw [Int.add_assoc, show ((k * 2 ^ c : Nat) : Int) + 1 = (k * 2 ^ c + 1 : Nat) from rfl,
      level_eq (by omega) hlt fun _ => by omega]
    push_cast
    rw [add_mul, mul_assoc, hcancel, mul_one, one_mul, hunit]

namespace NearestFloat

variable {x : ℝ} {y : Float} {k : Nat} (h : NearestFloat x y) (hk : k ≤ 1023) (hlow : (k : ℝ) ≤ x)
include h hk hlow

/-- The distance to `k` is a bound. -/
theorem abs_le_sub : |x - toRat y| ≤ x - k := by
  obtain ⟨n, hn, hlt, hlevel, -⟩ := exists_level_spacing (k := k) (by omega)
  obtain ⟨z, hz, hzn⟩ := exists_finite_level (n := n) (by omega) (by omega)
  have hle := h.le z hz
  rwa [hzn, hlevel, Rat.cast_natCast, abs_of_nonneg (sub_nonneg.2 hlow)] at hle

theorem natCast_le : (k : ℝ) ≤ toRat y := by
  have := abs_le.1 (h.abs_le_sub hk hlow)
  linarith

omit hlow in
theorem le_succ (hhigh : x < k + 1) : (toRat y : ℝ) ≤ k + 1 := by
  obtain ⟨n, hn, hlt, hlevel, -⟩ := exists_level_spacing (k := k + 1) (by omega)
  obtain ⟨z, hz, hzn⟩ := exists_finite_level (n := n) (by omega) (by omega)
  have hle := h.le z hz
  rw [hzn, hlevel, Rat.cast_natCast, Nat.cast_succ, abs_of_neg (sub_neg.2 hhigh)] at hle
  have := abs_le.1 hle
  linarith

/-- Less than half the spacing is lost. -/
theorem eq_natCast (hnear : 2 * (x - k) < spacing k) : (toRat y : ℝ) = k := by
  obtain ⟨n, hn, hlt, hlevel, hnext⟩ := exists_level_spacing (k := k) (by omega)
  have hge := h.natCast_le hk hlow
  have hdist := abs_le.1 (h.abs_le_sub hk hlow)
  refine le_antisymm (not_lt.1 fun hgt => ?_) hge
  have hord : n < ordinal y := by
    rw [← level_lt_level, hlevel]
    exact_mod_cast hgt
  have hfar : level (n + 1) ≤ toRat y := level_le_level.2 hord
  rw [hnext] at hfar
  have hfar' : (k : ℝ) + spacing k ≤ toRat y := by exact_mod_cast hfar
  linarith

/-- More than half the spacing is not. -/
theorem natCast_lt (hfar : spacing k < 2 * (x - k)) : (k : ℝ) < toRat y := by
  obtain ⟨n, hn, hlt, hlevel, hnext⟩ := exists_level_spacing (k := k) (by omega)
  obtain ⟨z, hz, hzn⟩ := exists_finite_level (n := n + 1) (by omega) hlt
  have hpos : (0 : ℝ) < spacing k := by exact_mod_cast spacing_pos k
  have hle := h.le z hz
  refine lt_of_le_of_ne (h.natCast_le hk hlow) fun heq => ?_
  rw [← heq, hzn, hnext, abs_of_nonneg (sub_nonneg.2 hlow)] at hle
  push_cast at hle
  have hcloser : |x - (k + spacing k)| < x - k := abs_lt.2 ⟨by linarith, by linarith⟩
  linarith

end NearestFloat

/-! ## Logarithms next to a whole number -/

theorem logb_mul_log_bounds {u : ℝ} (hu : 0 < u) :
    u / (1 + u) ≤ Real.logb 2 (1 + u) * Real.log 2 ∧
      Real.logb 2 (1 + u) * Real.log 2 ≤ u := by
  have hpos : 0 < 1 + u := by linarith
  have hlog : Real.logb 2 (1 + u) * Real.log 2 = Real.log (1 + u) :=
    div_mul_cancel₀ _ (Real.log_pos one_lt_two).ne'
  rw [hlog]
  constructor
  · have h := Real.one_sub_inv_le_log_of_pos hpos
    have hinv : 1 - (1 + u)⁻¹ = u / (1 + u) := by
      field_simp
      ring
    rwa [hinv] at h
  · have h := Real.log_le_sub_one_of_pos hpos
    linarith

/-- The greatest `j` that is lost where floats are `2 ^ (s - 52)` apart. -/
def lossLimit (s : Nat) : Nat := (logTwo <<< s - 1) / 20000000000000000

/-- No limit is so near a whole number that the digits of `log 2` after the ninth would matter, nor
the term of second order. -/
theorem lossLimit_clear : ∀ s ≤ 9,
    2 * lossLimit s * 10000000000 < 6931471803 * 2 ^ s ∧
      6931471808 * 2 ^ s * (0x10000000000000 + (lossLimit s + 1)) <
        20000000000 * 0x10000000000000 * (lossLimit s + 1) := by
  decide

section

variable {k j : Nat}

theorem absorbs_iff : absorbs k j = true ↔ 0 < k ∧ j ≤ lossLimit k.log2 := by
  have hpos : 0 < logTwo <<< k.log2 := by
    rw [Nat.shiftLeft_eq]
    exact Nat.mul_pos (by decide) (by positivity)
  rw [absorbs, Bool.and_eq_true, decide_eq_true_eq, decide_eq_true_eq, lossLimit,
    Nat.le_div_iff_mul_le (by norm_num)]
  omega

theorem log2_le_nine (hk : k ≤ 1023) : k.log2 ≤ 9 := log2_le_log2 hk

theorem lt_of_le_lossLimit (hk : k ≤ 1023) (hj : j ≤ lossLimit k.log2) :
    (2 * j : ℝ) < 2 ^ k.log2 * Real.log 2 := by
  have hlt : 2 * j * 10000000000 < 6931471803 * 2 ^ k.log2 :=
    calc 2 * j * 10000000000 ≤ 2 * lossLimit k.log2 * 10000000000 :=
          Nat.mul_le_mul_right _ (Nat.mul_le_mul_left _ hj)
      _ < 6931471803 * 2 ^ k.log2 := (lossLimit_clear _ (log2_le_nine hk)).1
  have hlt' : (2 * j * 10000000000 : ℝ) < 6931471803 * 2 ^ k.log2 := by exact_mod_cast hlt
  have htwo : (0.6931471803 : ℝ) * 2 ^ k.log2 ≤ Real.log 2 * 2 ^ k.log2 :=
    mul_le_mul_of_nonneg_right Real.log_two_gt_d9.le (by positivity)
  linarith

theorem lt_of_lossLimit_lt (hk : k ≤ 1023) (hj : lossLimit k.log2 < j) :
    2 ^ k.log2 * Real.log 2 * (1 + j / 0x10000000000000) < 2 * j := by
  have hclear := (lossLimit_clear _ (log2_le_nine hk)).2
  have hlt : 6931471808 * 2 ^ k.log2 * (0x10000000000000 + j) <
      20000000000 * 0x10000000000000 * j := by
    obtain ⟨i, rfl⟩ := Nat.exists_eq_add_of_le hj
    have hpow : 2 ^ k.log2 ≤ 2 ^ 9 := Nat.pow_le_pow_right (by norm_num) (log2_le_nine hk)
    nlinarith
  have hlt' : (6931471808 * 2 ^ k.log2 * (0x10000000000000 + j) : ℝ) <
      20000000000 * 0x10000000000000 * j := by exact_mod_cast hlt
  have htwo : Real.log 2 * (2 ^ k.log2 * (1 + j / 0x10000000000000)) ≤
      0.6931471808 * (2 ^ k.log2 * (1 + j / 0x10000000000000)) :=
    mul_le_mul_of_nonneg_right Real.log_two_lt_d9.le (by positivity)
  have hsum : (1 + j / 0x10000000000000 : ℝ) * 0x10000000000000 = 0x10000000000000 + j := by
    field_simp
  nlinarith

theorem two_logb_lt_spacing (hk : k ≤ 1023) (hj : 0 < j) (h : absorbs k j = true) :
    2 * Real.logb 2 (1 + j / 0x10000000000000) < spacing k := by
  obtain ⟨hpos, hle⟩ := absorbs_iff.1 h
  have hlog : 0 < Real.log 2 := Real.log_pos one_lt_two
  have hbound := (logb_mul_log_bounds (u := j / 0x10000000000000) (by positivity)).2
  have hlt := lt_of_le_lossLimit hk hle
  rw [spacing, if_neg hpos.ne']
  push_cast
  rw [lt_div_iff₀ (by norm_num)]
  refine lt_of_mul_lt_mul_right ?_ hlog.le
  linarith

theorem spacing_lt_two_logb (hk : k ≤ 1023) (hj : 0 < j) (h : absorbs k j = false) :
    spacing k < 2 * Real.logb 2 (1 + j / 0x10000000000000) := by
  have hlimit : lossLimit k.log2 < j := by
    obtain rfl | hpos := Nat.eq_zero_or_pos k
    · exact lt_of_eq_of_lt (by decide) hj
    · by_contra hle
      rw [absorbs_iff.2 ⟨hpos, not_lt.1 hle⟩] at h
      cases h
  have hlog : 0 < Real.log 2 := Real.log_pos one_lt_two
  have hu : (0 : ℝ) < j / 0x10000000000000 := by positivity
  have hbound := (logb_mul_log_bounds hu).1
  rw [div_le_iff₀ (by linarith)] at hbound
  have hlt := lt_of_lossLimit_lt hk hlimit
  refine (Rat.cast_le.2 (spacing_le k)).trans_lt ?_
  push_cast
  rw [div_lt_iff₀ (by norm_num)]
  have hfactor : 0 < Real.log 2 * (1 + j / 0x10000000000000) := by positivity
  refine lt_of_mul_lt_mul_right ?_ hfactor.le
  linarith

end

/-! ## Numbers from one on -/

/-- The float `q` is `2 ^ k * (1 + j / 2 ^ 52)`. -/
structure Binade (q : Float) (k j : Nat) : Prop where
  k_le : k ≤ 1023
  j_lt : j < 0x10000000000000
  toRat_eq : toRat q = 2 ^ k * (1 + j / 0x10000000000000)
  next : level (ordinal q + 1) = 2 ^ k * (1 + (j + 1) / 0x10000000000000)
  ceilLog2_eq : ceilLog2 q = if j = 0 ∨ absorbs k j then k else k + 1

theorem exists_binade {q : Float} (hq : q.isFinite = true) (hone : 1 ≤ toRat q) :
    ∃ k j, Binade q k j := by
  have hc := canonical_float q
  obtain ⟨s, hu⟩ | ⟨s, m, e, hm, hu⟩ := finite_cases (show q.toModel.unpack.isFinite = true from hq)
  · rw [toRat, ordinal, hu, show ordinalOf (.zero s) = 0 from rfl, level_zero] at hone
    norm_num at hone
  rw [hu] at hc
  have hvalue := level_ordinalOf hc
  rw [toRat, ordinal, hu, hvalue] at hone
  obtain ⟨hdigits, hleast, hgreatest, hlead⟩ := hc
  have hpow : (0 : ℚ) < 2 ^ e := by positivity
  have hsign : s = .positive := by
    cases s with
    | positive => rfl
    | negative =>
      have hneg : ((Sign.negative.apply m : Int) : ℚ) ≤ 0 := by
        show ((-(m : Int) : Int) : ℚ) ≤ 0
        push_cast
        linarith [(Nat.cast_nonneg m : (0 : ℚ) ≤ m)]
      nlinarith
  subst hsign
  change 1 ≤ (((m : Int)) : ℚ) * 2 ^ e at hone
  -- A smaller exponent would leave the number below 1.
  have he : -52 ≤ e := by
    by_contra hlt
    have hle : (2 : ℚ) ^ e ≤ 2 ^ (-53 : Int) := zpow_le_zpow_right₀ (by norm_num) (by omega)
    have hm' : (m : ℚ) < 0x20000000000000 := by exact_mod_cast hdigits
    have hlow : (2 : ℚ) ^ (-53 : Int) = 1 / 0x20000000000000 := by norm_num
    push_cast at hone
    rw [hlow] at hle
    nlinarith
  obtain ⟨k, hk⟩ := Int.eq_ofNat_of_zero_le (a := e + 52) (by omega)
  obtain ⟨j, hj⟩ := Nat.exists_eq_add_of_le (hlead (by omega))
  have hexp : (2 : ℚ) ^ e = 2 ^ k / 0x10000000000000 := by
    rw [show e = k - 52 by omega, zpow_sub₀ (by norm_num), zpow_natCast]
    norm_num
  have hord : ordinal q = (e + 1074) * 0x10000000000000 + m := by
    rw [ordinal, hu]
    rfl
  refine ⟨k, j, by omega, by omega, ?_, ?_, ?_⟩
  · rw [toRat, hord, level_eq hleast hdigits.le hlead, hexp, hj]
    push_cast
    ring
  · rw [hord, Int.add_assoc, show ((m : Nat) : Int) + 1 = (m + 1 : Nat) from rfl,
      level_eq hleast hdigits fun h => (hlead h).trans (Nat.le_succ m), hexp, hj]
    push_cast
    ring
  · rw [ceilLog2, hu]
    dsimp only
    rw [hk, Int.toNat_natCast, hj, Nat.add_sub_cancel_left]

namespace Binade

variable {q : Float} {k j : Nat} (h : Binade q k j)
include h

theorem logb_eq : Real.logb 2 (toRat q) = k + Real.logb 2 (1 + j / 0x10000000000000) := by
  rw [h.toRat_eq]
  push_cast
  rw [Real.logb_mul (by positivity) (by positivity), Real.logb_pow, Real.logb_self_eq_one one_lt_two,
    mul_one]

theorem logb_fraction (hj : 0 < j) : 0 < Real.logb 2 (1 + j / 0x10000000000000) ∧
    Real.logb 2 (1 + j / 0x10000000000000) < 1 := by
  have hlt : (j : ℝ) < 0x10000000000000 := by exact_mod_cast h.j_lt
  have hpos : (0 : ℝ) < j / 0x10000000000000 := by positivity
  have hone : (j : ℝ) / 0x10000000000000 < 1 := by rw [div_lt_one (by norm_num)]; exact hlt
  refine ⟨Real.logb_pos one_lt_two (by linarith), ?_⟩
  rw [Real.logb_lt_iff_lt_rpow one_lt_two (by linarith), Real.rpow_one]
  linarith

theorem two_pow_le : 2 ^ k ≤ toRat q := by
  rw [h.toRat_eq]
  exact le_mul_of_one_le_right (by positivity) (le_add_of_nonneg_right (by positivity))

theorem two_pow_lt (hj : 0 < j) : 2 ^ k < toRat q := by
  rw [h.toRat_eq]
  exact lt_mul_of_one_lt_right (by positivity) (lt_add_of_pos_right _ (by positivity))

theorem lt_two_pow_succ : toRat q < 2 ^ (k + 1) := by
  have hlt : (j : ℚ) / 0x10000000000000 < 1 := by
    rw [div_lt_one (by norm_num)]
    exact_mod_cast h.j_lt
  rw [h.toRat_eq, pow_succ]
  exact mul_lt_mul_of_pos_left (by linarith) (by positivity)

theorem two_pow_pred_lt (hone : 1 ≤ ceilLog2 q) : 2 ^ (ceilLog2 q - 1) < toRat q := by
  rw [h.ceilLog2_eq] at hone ⊢
  by_cases hdown : j = 0 ∨ absorbs k j = true
  · rw [if_pos hdown] at hone ⊢
    exact (pow_lt_pow_right₀ one_lt_two (by omega)).trans_le h.two_pow_le
  · rw [if_neg hdown]
    exact h.two_pow_lt (Nat.pos_of_ne_zero fun hj => hdown (.inl hj))

/-- The count falls short only by what the logarithm has lost. -/
theorem absorbs_of_short (hshort : 2 ^ ceilLog2 q < toRat q) :
    ceilLog2 q = k ∧ absorbs k j = true := by
  rw [h.ceilLog2_eq] at hshort ⊢
  by_cases hdown : j = 0 ∨ absorbs k j = true
  · rw [if_pos hdown] at hshort ⊢
    refine ⟨rfl, hdown.resolve_left fun hj => ?_⟩
    rw [h.toRat_eq, hj] at hshort
    simp at hshort
  · rw [if_neg hdown] at hshort
    exact absurd hshort h.lt_two_pow_succ.not_gt

end Binade

/-- The loss is small beside the count. -/
theorem two_mul_lt_of_absorbs {k j : Nat} (h : absorbs k j = true) : 2 * j < k := by
  rw [absorbs, Bool.and_eq_true, decide_eq_true_eq, decide_eq_true_eq, Nat.shiftLeft_eq] at h
  obtain ⟨hpos, hlt⟩ := h
  have hpow := Nat.log2_self_le hpos.ne'
  unfold logTwo at hlt
  omega

/-- The halvings are counted from the rounded logarithm, however ties are broken. -/
theorem ceilLog2_eq_ceil {q : Float} (hq : q.isFinite = true) (hone : 1 ≤ toRat q) {y : Float}
    (hy : NearestFloat (Real.logb 2 (toRat q)) y) : (ceilLog2 q : Int) = ⌈toRat y⌉ := by
  obtain ⟨k, j, h⟩ := exists_binade hq hone
  have hlogb := h.logb_eq
  rw [h.ceilLog2_eq]
  obtain rfl | hj := Nat.eq_zero_or_pos j
  · have hexact : Real.logb 2 (toRat q) = k := by simpa using hlogb
    have hspacing : (0 : ℝ) < spacing k := by exact_mod_cast spacing_pos k
    have heq := hy.eq_natCast h.k_le hexact.ge (by rw [hexact, sub_self, mul_zero]; exact hspacing)
    have heq' : toRat y = k := by exact_mod_cast heq
    rw [if_pos (.inl rfl), heq', Int.ceil_natCast]
  obtain ⟨hpos, hlt⟩ := h.logb_fraction hj
  have hlow : (k : ℝ) ≤ Real.logb 2 (toRat q) := by linarith
  have hhigh : Real.logb 2 (toRat q) < k + 1 := by linarith
  cases habsorbs : absorbs k j with
  | true =>
    have heq := hy.eq_natCast h.k_le hlow
      (by rw [hlogb, add_sub_cancel_left]; exact two_logb_lt_spacing h.k_le hj habsorbs)
    have heq' : toRat y = k := by exact_mod_cast heq
    rw [if_pos (.inr rfl), heq', Int.ceil_natCast]
  | false =>
    have hgt := hy.natCast_lt h.k_le hlow
      (by rw [hlogb, add_sub_cancel_left]; exact spacing_lt_two_logb h.k_le hj habsorbs)
    have hle := hy.le_succ h.k_le hhigh
    have hgt' : (k : ℚ) < toRat y := by exact_mod_cast hgt
    have hle' : toRat y ≤ k + 1 := by exact_mod_cast hle
    rw [if_neg (by simp [hj.ne']), eq_comm, Int.ceil_eq_iff]
    push_cast
    exact ⟨by linarith, hle'⟩

end ZeroSearch.Binary64
