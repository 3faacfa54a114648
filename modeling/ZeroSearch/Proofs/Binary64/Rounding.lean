import Mathlib
import ZeroSearch.Proofs.Binary64.Levels
import ZeroSearch.Proofs.Binary64.Packing

/-!
# Rounding

A rounding shifts a mantissa to the right until it has the digits that a float can hold, keeping a
round bit and a sticky bit, rounds the mantissa by these bits and puts it together with its
exponent. `Describes` gives the bits their meaning and is kept by every shift; `RoundsTo` is what
the bits decide. The result of a whole rounding is the ordinal `Nearest` to the number that was
described (`roundWithAccuracy_spec`, `normalize_spec`).
-/

namespace ZeroSearch.Binary64

open Float.Model Float.Model.UnpackedFloat

/-! ## Residual bits -/

/-- `t` lies above the mantissa by what the residual bits tell. -/
def Describes : ExtendedMantissa → ℚ → Prop
  | ⟨m, false, false⟩, t => t = m
  | ⟨m, false, true⟩, t => m < t ∧ t < m + 1 / 2
  | ⟨m, true, false⟩, t => t = m + 1 / 2
  | ⟨m, true, true⟩, t => m + 1 / 2 < t ∧ t < m + 1

theorem shift_succ (em : ExtendedMantissa) (k : Nat) :
    em >>> (k + 1) = (em >>> k).shiftRightOne := rfl

theorem mantissa_shift (em : ExtendedMantissa) (k : Nat) :
    (em >>> k).mantissa = em.mantissa / 2 ^ k := by
  induction k with
  | zero => exact (Nat.div_one _).symm
  | succ k ih =>
    rw [shift_succ, ExtendedMantissa.shiftRightOne, ih, Nat.div_div_eq_div_mul, pow_succ]

namespace Describes
variable {em : ExtendedMantissa} {t : ℚ}

theorem floor (h : Describes em t) : (em.mantissa : ℚ) ≤ t ∧ t < em.mantissa + 1 := by
  obtain ⟨m, r, s⟩ := em
  cases r <;> cases s <;> dsimp only [Describes] at h ⊢ <;> constructor <;> linarith

theorem shiftRightOne (h : Describes em t) : Describes em.shiftRightOne (t / 2) := by
  obtain ⟨m, r, s⟩ := em
  obtain ⟨a, rfl | rfl⟩ := m.even_or_odd'
  · have hdiv : 2 * a / 2 = a := by omega
    have hmod : (2 * a % 2 != 0) = false := by simp
    cases r <;> cases s <;>
      simp only [Describes, ExtendedMantissa.shiftRightOne, hdiv, hmod, Bool.or_true,
        Bool.or_false] at h ⊢ <;>
      push_cast at h <;> first | linarith | constructor <;> linarith
  · have hdiv : (2 * a + 1) / 2 = a := by omega
    have hmod : ((2 * a + 1) % 2 != 0) = true := by simp [Nat.add_mod]
    cases r <;> cases s <;>
      simp only [Describes, ExtendedMantissa.shiftRightOne, hdiv, hmod, Bool.or_true,
        Bool.or_false] at h ⊢ <;>
      push_cast at h <;> first | linarith | constructor <;> linarith

theorem shift (h : Describes em t) (k : Nat) : Describes (em >>> k) (t / 2 ^ k) := by
  induction k with
  | zero =>
    rw [pow_zero, div_one]
    exact h
  | succ k ih =>
    rw [shift_succ, pow_succ, ← div_div]
    exact ih.shiftRightOne

end Describes

/-! ## Rounding a mantissa -/

/-- `r` is the natural number next to `t`, an even one if two are equally near. -/
structure RoundsTo (t : ℚ) (r : Nat) : Prop where
  below : 2 * (r : ℚ) - 1 ≤ 2 * t
  above : 2 * t ≤ 2 * r + 1
  strict : ¬ Even r → 2 * (r : ℚ) - 1 < 2 * t ∧ 2 * t < 2 * r + 1

theorem RoundsTo.of_lt {t : ℚ} {r : Nat} (h₁ : 2 * (r : ℚ) - 1 < 2 * t)
    (h₂ : 2 * t < 2 * r + 1) : RoundsTo t r :=
  ⟨h₁.le, h₂.le, fun _ => ⟨h₁, h₂⟩⟩

theorem RoundsTo.of_even {t : ℚ} {r : Nat} (hr : Even r) (h₁ : 2 * (r : ℚ) - 1 ≤ 2 * t)
    (h₂ : 2 * t ≤ 2 * r + 1) : RoundsTo t r :=
  ⟨h₁, h₂, fun hodd => absurd hr hodd⟩

theorem Describes.roundsTo {em : ExtendedMantissa} {t : ℚ} (h : Describes em t) :
    RoundsTo t em.roundedMantissa := by
  obtain ⟨m, r, s⟩ := em
  cases r <;> cases s <;>
    simp only [Describes, ExtendedMantissa.roundedMantissa, ExtendedMantissa.accuracy,
      Accuracy.roundToNearestEven] at h ⊢
  · exact .of_lt (by linarith) (by linarith)
  · exact .of_lt (by linarith) (by linarith)
  · obtain ⟨a, rfl | rfl⟩ := m.even_or_odd'
    · rw [show 2 * a + 2 * a % 2 = 2 * a by omega]
      push_cast at h
      exact .of_even (even_two_mul a) (by push_cast; linarith) (by push_cast; linarith)
    · rw [show 2 * a + 1 + (2 * a + 1) % 2 = 2 * (a + 1) by omega]
      push_cast at h
      exact .of_even (even_two_mul (a + 1)) (by push_cast; linarith) (by push_cast; linarith)
  · exact .of_lt (by push_cast; linarith) (by push_cast; linarith)

theorem roundedMantissa_mem (em : ExtendedMantissa) :
    em.mantissa ≤ em.roundedMantissa ∧ em.roundedMantissa ≤ em.mantissa + 1 := by
  obtain ⟨m, r, s⟩ := em
  cases r <;> cases s <;>
    simp only [ExtendedMantissa.roundedMantissa, ExtendedMantissa.accuracy,
      Accuracy.roundToNearestEven] <;> omega

/-- The level below a mantissa that lies above `t`. -/
theorem level_pred_of_lt {t : ℚ} {e : Int} {r : Nat} (he : -1074 ≤ e)
    (hr : r ≤ 0x20000000000000) (ht : 0 ≤ t) (ht₀ : -1074 < e → 0x10000000000000 ≤ t)
    (hlt : t < r) : level ((e + 1074) * 0x10000000000000 + r - 1) = (r - 1) * 2 ^ e := by
  have hr₁ : 1 ≤ r := Nat.one_le_iff_ne_zero.2 fun h₀ => by
    subst h₀
    push_cast at hlt
    linarith
  have hlead : -1074 < e → 0x10000000000000 ≤ r - 1 := fun he' => by
    have : (0x10000000000000 : ℚ) < r := (ht₀ he').trans_lt hlt
    have : 0x10000000000000 < r := by exact_mod_cast this
    omega
  have := level_eq (m := r - 1) he (by omega) hlead
  rw [show (e + 1074) * 0x10000000000000 + r - 1 =
    (e + 1074) * 0x10000000000000 + (r - 1 : Nat) by omega, this]
  push_cast [hr₁]
  ring

/-- The level above a mantissa that lies below `t`. -/
theorem level_succ_of_lt {t : ℚ} {e : Int} {r : Nat} (he : -1074 ≤ e)
    (hr₀ : -1074 < e → 0x10000000000000 ≤ r) (ht : t < 0x20000000000000) (hlt : r < t) :
    level ((e + 1074) * 0x10000000000000 + r + 1) = (r + 1) * 2 ^ e := by
  have hr₁ : r < 0x20000000000000 := by exact_mod_cast hlt.trans ht
  have := level_eq (m := r + 1) he (by omega) fun he' => by have := hr₀ he'; omega
  rw [show (e + 1074) * 0x10000000000000 + r + 1 =
    (e + 1074) * 0x10000000000000 + (r + 1 : Nat) by push_cast; ring, this]
  push_cast
  ring

/-- A mantissa rounded at an exponent is an ordinal rounded: neighbours of the mantissa are
neighbours of the ordinal wherever the number to be rounded has them between it and the mantissa. -/
theorem nearest_of_roundsTo {t : ℚ} {e : Int} {r : Nat} (h : RoundsTo t r) (he : -1074 ≤ e)
    (hr : r ≤ 0x20000000000000) (hr₀ : -1074 < e → 0x10000000000000 ≤ r)
    (ht : 0 ≤ t ∧ t < 0x20000000000000) (ht₀ : -1074 < e → 0x10000000000000 ≤ t) :
    Nearest (t * 2 ^ e) ((e + 1074) * 0x10000000000000 + r) := by
  have hpos : (0 : ℚ) < 2 ^ e := by positivity
  have hlevel := level_eq he hr hr₀
  have hpred := level_pred_of_lt he hr ht.1 ht₀
  have hsucc := level_succ_of_lt he hr₀ ht.2
  have heven : Even ((e + 1074) * 0x10000000000000 + r) ↔ Even r := by
    rw [Int.even_iff, Nat.even_iff]
    omega
  generalize (e + 1074) * 0x10000000000000 + r = n at hlevel heven hpred hsucc
  have hbelow := level_lt_succ (n - 1)
  have habove := level_lt_succ n
  rw [Int.sub_add_cancel] at hbelow
  refine ⟨?_, ?_, fun hodd => ⟨?_, ?_⟩⟩
  · obtain hlt | hle := lt_or_ge t r
    · rw [hpred hlt, hlevel]
      nlinarith [h.below]
    · nlinarith
  · obtain hlt | hle := lt_or_ge (r : ℚ) t
    · rw [hsucc hlt, hlevel]
      nlinarith [h.above]
    · nlinarith
  · obtain hlt | hle := lt_or_ge t r
    · rw [hpred hlt, hlevel]
      nlinarith [(h.strict (mt heven.2 hodd)).1]
    · nlinarith
  · obtain hlt | hle := lt_or_ge (r : ℚ) t
    · rw [hsucc hlt, hlevel]
      nlinarith [(h.strict (mt heven.2 hodd)).2]
    · nlinarith

/-! ## Shifting to the target exponent -/

theorem targetExponent_eq (t : Int) :
    Format.binary64.targetExponent t = max (t - 53) (-1074) := rfl

theorem shifted_lt {m k : Nat} (h : m.log2 ≤ 52 + k) : m / 2 ^ k < 0x20000000000000 := by
  rw [Nat.div_lt_iff_lt_mul (by positivity)]
  calc m < 2 ^ (m.log2 + 1) := Nat.lt_log2_self
    _ ≤ 2 ^ (53 + k) := Nat.pow_le_pow_right (by omega) (by omega)
    _ = 0x20000000000000 * 2 ^ k := by rw [pow_add]; norm_num

theorem le_shifted {m k : Nat} (hm : m ≠ 0) (h : m.log2 = 52 + k) :
    0x10000000000000 ≤ m / 2 ^ k := by
  rw [Nat.le_div_iff_mul_le (by positivity)]
  calc 0x10000000000000 * 2 ^ k = 2 ^ m.log2 := by rw [h, pow_add]; norm_num
    _ ≤ m := Nat.log2_self_le hm

theorem mantissa_ofMantissaAndAccuracy (m : Nat) (a : Accuracy) :
    (ExtendedMantissa.ofMantissaAndAccuracy m a).mantissa = m := by
  rcases a with _ | _ | _ | _ <;> rfl

/-- The second shift of a rounding does nothing to a mantissa that has not been carried over. -/
theorem shiftToTargetExponent_rounded {r : Nat} {e : Int} (hr : r < 0x20000000000000)
    (he : -1074 ≤ e) :
    (shiftToTargetExponent .binary64 r e .exact).1.mantissa = r ∧
      (shiftToTargetExponent .binary64 r e .exact).2 = e := by
  have hlog : r.log2 ≤ 52 := by
    by_cases h : r = 0
    · simp [h]
    · exact Nat.lt_succ_iff.1 ((Nat.log2_lt h).2 hr)
  have hshift : (Format.binary64.targetExponent (totalExponent r e) - e).toNat = 0 := by
    rw [targetExponent_eq, totalExponent]
    omega
  unfold shiftToTargetExponent shiftToExponent
  dsimp only
  rw [hshift, mantissa_shift, mantissa_ofMantissaAndAccuracy]
  simp

theorem shiftToTargetExponent_carried {e : Int} (he : -1074 ≤ e) :
    (shiftToTargetExponent .binary64 0x20000000000000 e .exact).1.mantissa = 0x10000000000000 ∧
      (shiftToTargetExponent .binary64 0x20000000000000 e .exact).2 = e + 1 := by
  have hlog : (0x20000000000000 : Nat).log2 = 53 := by decide
  have hshift :
      (Format.binary64.targetExponent (totalExponent 0x20000000000000 e) - e).toNat = 1 := by
    rw [targetExponent_eq, totalExponent, hlog]
    omega
  unfold shiftToTargetExponent shiftToExponent
  dsimp only
  rw [hshift, mantissa_shift, mantissa_ofMantissaAndAccuracy]
  exact ⟨rfl, rfl⟩

/-! ## Whole roundings -/

/-- The unpacked float `u` is what `q` rounds to, with no limit on its exponent. -/
structure IsRounding (q : ℚ) (u : UnpackedFloat) : Prop where
  normalized : Normalized u
  not_nan : u.isNaN = false
  nearest : Nearest q (ordinalOf u)

theorem IsRounding.of_canonical {u : UnpackedFloat} (h : Canonical u) (hn : u.isNaN = false) :
    IsRounding (level (ordinalOf u)) u :=
  ⟨.of_canonical h, hn, nearest_level _⟩

theorem isRounding_zero (s : Sign) : IsRounding 0 (.zero s) := ⟨trivial, rfl, nearest_zero⟩

theorem Nearest.apply {q : ℚ} {n : Int} (h : Nearest q n) (s : Sign) :
    Nearest ((s.apply 1 : Int) * q) (s.apply n) := by
  cases s
  · simpa [Sign.apply] using h.neg
  · simpa [Sign.apply] using h

theorem roundWithAccuracy_place (s : Sign) {m : Nat} {e d : Int} {a : Accuracy}
    {em : ExtendedMantissa} (hem : shiftToTargetExponent .binary64 m e a = (em, d))
    (hd : -1074 ≤ d) (hr : em.roundedMantissa ≤ 0x20000000000000)
    (hlead : -1074 < d → 0x10000000000000 ≤ em.roundedMantissa) :
    let u := roundWithAccuracy .binary64 s m e a
    Normalized u ∧ u.isNaN = false ∧
      ordinalOf u = s.apply ((d + 1074) * 0x10000000000000 + em.roundedMantissa) := by
  delta roundWithAccuracy
  rw [hem]
  dsimp only
  generalize em.roundedMantissa = r at hr hlead
  obtain hr | rfl := hr.lt_or_eq
  · obtain ⟨h₁, h₂⟩ := shiftToTargetExponent_rounded hr hd
    rw [h₁, h₂]
    by_cases h : r = 0
    · rw [dif_pos h]
      obtain rfl : d = -1074 := by omega
      subst h
      exact ⟨trivial, rfl, by cases s <;> rfl⟩
    · rw [dif_neg h]
      exact ⟨⟨hr, hd, hlead⟩, rfl, rfl⟩
  · obtain ⟨h₁, h₂⟩ := shiftToTargetExponent_carried hd
    rw [h₁, h₂, dif_neg (by decide)]
    refine ⟨⟨by decide, by omega, fun _ => le_rfl⟩, rfl, ?_⟩
    dsimp only [ordinalOf]
    congr 1
    push_cast
    ring

/-- Rounds the number that a mantissa and an accuracy describe, if the mantissa is long enough. -/
theorem roundWithAccuracy_spec (s : Sign) {m : Nat} {e : Int} {a : Accuracy} {q : ℚ}
    (hq : Describes (.ofMantissaAndAccuracy m a) (q / 2 ^ e))
    (he : e ≤ Format.binary64.targetExponent (totalExponent m e)) :
    IsRounding ((s.apply 1 : Int) * q) (roundWithAccuracy .binary64 s m e a) := by
  rw [targetExponent_eq, totalExponent] at he
  obtain ⟨k, hk⟩ : ∃ k : Nat, max ((m.log2 : Int) + 1 + e - 53) (-1074) = e + k :=
    ⟨(max ((m.log2 : Int) + 1 + e - 53) (-1074) - e).toNat, by omega⟩
  let em := ExtendedMantissa.ofMantissaAndAccuracy m a >>> k
  have hem : shiftToTargetExponent .binary64 m e a = (em, e + k) := by
    unfold shiftToTargetExponent shiftToExponent
    dsimp only
    rw [targetExponent_eq, totalExponent, hk, show (e + k - e).toNat = k by omega]
  have hmant : em.mantissa = m / 2 ^ k := by
    rw [mantissa_shift, mantissa_ofMantissaAndAccuracy]
  have hdesc : Describes em (q / 2 ^ (e + k)) := by
    have := hq.shift k
    rwa [div_div, ← zpow_natCast, ← zpow_add₀ (by norm_num)] at this
  have hlt : em.mantissa < 0x20000000000000 := by
    rw [hmant]
    exact shifted_lt (by omega)
  have hlead : -1074 < e + k → 0x10000000000000 ≤ em.mantissa := fun hd => by
    rw [hmant]
    refine le_shifted ?_ (by omega)
    rintro rfl
    have : (0 : Nat).log2 = 0 := by decide
    omega
  have hround := roundedMantissa_mem em
  have hfloor := hdesc.floor
  have hlead' : -1074 < e + k → 0x10000000000000 ≤ em.roundedMantissa := fun hd =>
    (hlead hd).trans hround.1
  have hnear := nearest_of_roundsTo hdesc.roundsTo (by omega) (by omega) hlead'
    ⟨le_trans (by positivity) hfloor.1, hfloor.2.trans_le (by exact_mod_cast hlt)⟩
    (fun hd => le_trans (by exact_mod_cast hlead hd) hfloor.1)
  rw [div_mul_cancel₀ _ (by positivity)] at hnear
  obtain ⟨hnorm, hnan, hord⟩ := roundWithAccuracy_place s hem (by omega) (by omega) hlead'
  refine ⟨hnorm, hnan, ?_⟩
  rw [hord]
  exact hnear.apply s

theorem log2_shiftLeft {m : Nat} (hm : m ≠ 0) (k : Nat) : (m <<< k).log2 = m.log2 + k := by
  rw [Nat.shiftLeft_eq, Nat.log2_eq_iff (by positivity), pow_succ, pow_add]
  have h₁ := Nat.log2_self_le hm
  have h₂ := Nat.lt_log2_self (n := m)
  rw [pow_succ] at h₂
  exact ⟨Nat.mul_le_mul_right _ h₁, by nlinarith [Nat.two_pow_pos k]⟩

/-- Rounds a number of any length: digits are appended first where the mantissa is too short. -/
theorem round_spec (s : Sign) {m : Nat} (hm : m ≠ 0) (e : Int) :
    IsRounding ((s.apply 1 : Int) * (m * 2 ^ e)) (UnpackedFloat.round .binary64 s m e) := by
  obtain ⟨k, hk⟩ :
      ∃ k : Nat, (e - Format.binary64.targetExponent (totalExponent m e)).toNat = k := ⟨_, rfl⟩
  unfold UnpackedFloat.round decreaseExponent
  dsimp only
  rw [hk]
  refine roundWithAccuracy_spec s ?_ ?_
  · show _ = _
    rw [Nat.shiftLeft_eq, zpow_sub₀ (by norm_num), zpow_natCast]
    push_cast
    field_simp
  · rw [targetExponent_eq, totalExponent] at hk ⊢
    rw [log2_shiftLeft hm]
    push_cast
    omega

theorem normalize_spec (m e : Int) (s : Sign) :
    IsRounding (m * 2 ^ e) (UnpackedFloat.normalize .binary64 m e s) := by
  unfold UnpackedFloat.normalize
  obtain h | rfl | h := lt_trichotomy m 0
  · rw [Int.compare_eq_lt.2 h]
    have hround := round_spec .negative (m := (-m).toNat) (by omega) e
    have hm : (((-m).toNat : Nat) : ℚ) = -m := by
      exact_mod_cast Int.toNat_of_nonneg (by omega : 0 ≤ -m)
    rw [hm] at hround
    simpa [Sign.apply] using hround
  · rw [show compare (0 : Int) 0 = .eq from rfl]
    simpa using isRounding_zero s
  · rw [Int.compare_eq_gt.2 h]
    have hround := round_spec .positive (m := m.toNat) (by omega) e
    have hm : ((m.toNat : Nat) : ℚ) = m := by
      exact_mod_cast Int.toNat_of_nonneg h.le
    rw [hm] at hround
    simpa [Sign.apply] using hround

end ZeroSearch.Binary64
