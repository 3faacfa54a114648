import Mathlib
import ZeroSearch.Proofs.Binary64.Rounding

/-!
# Arithmetic

`toRat x` is the number that the float `x` stands for, and `Rounded q x` says that `x` is what `q`
rounds to. Sums, differences and products of finite floats are the exact results rounded
(`add_rounded`, `sub_rounded`, `mul_rounded`). A rounded number stays on its side of every float
(`Rounded.le_float`, `Rounded.float_le`), which is all that bounds on computed values need.

Ordinals do not tell the two zeros apart. A sum that is zero is the positive one, unless both terms
are zeros (`add_eq_zero`).

Counts are rounded like everything else (`toFloat_rounded`). Up to `2 ^ 53` that changes nothing
(`toRat_toFloat`), and from there on two of them can be the same float.
-/

namespace ZeroSearch.Binary64

open Float.Model Float.Model.UnpackedFloat

/-! ## Numbers of floats -/

/-- Infinities count as `2 ^ 1024` and its negative, and NaN as zero. -/
def toRat (x : Float) : ℚ := level (ordinal x)

theorem toRat_le_toRat {x y : Float} (hx : x.isNaN = false) (hy : y.isNaN = false) :
    toRat x ≤ toRat y ↔ x ≤ y := by
  rw [toRat, toRat, level_le_level, le_iff_ordinal hx hy]

theorem toRat_lt_toRat {x y : Float} (h : x < y) : toRat x < toRat y :=
  level_lt_level.2 (ordinal_lt_of_lt h)

theorem toRat_zero : toRat 0 = 0 := level_zero

theorem toRat_pos {x : Float} (h : 0 < x) : 0 < toRat x := toRat_zero ▸ toRat_lt_toRat h

theorem toRat_eq_of_ordinal_eq {x y : Float} (h : ordinal x = ordinal y) : toRat x = toRat y :=
  congrArg level h

theorem apply_neg (s : Sign) (n : Int) : (-s).apply n = -s.apply n := by
  cases s
  · exact (neg_neg n).symm
  · rfl

theorem ordinalOf_neg (u : UnpackedFloat) : ordinalOf u.neg = -ordinalOf u := by
  rcases u with s | _ | s | ⟨s, m, e, hm⟩
  · exact apply_neg s _
  · rfl
  · rfl
  · exact apply_neg s _

theorem level_apply (s : Sign) (n : Int) : level (s.apply n) = (s.apply 1 : Int) * level n := by
  cases s <;> simp [Sign.apply]

theorem apply_eq (s : Sign) (n : Int) : s.apply n = s.apply 1 * n := by
  cases s <;> simp [Sign.apply]

theorem level_ordinalOf {s : Sign} {m : Nat} {e : Int} {hm : 0 < m}
    (h : Canonical (.finite s m e hm)) :
    level (ordinalOf (.finite s m e hm)) = (s.apply m : Int) * 2 ^ e := by
  dsimp only [Canonical] at h
  dsimp only [ordinalOf]
  rw [level_apply, level_eq h.2.1 (by omega) h.2.2.2, apply_eq s m]
  push_cast
  ring

theorem canonical_float (x : Float) : Canonical x.toModel.unpack := canonical_unpack _

theorem finite_cases {u : UnpackedFloat} (h : u.isFinite = true) :
    (∃ s, u = .zero s) ∨ ∃ s m e hm, u = .finite s m e hm := by
  rcases u with s | _ | s | ⟨s, m, e, hm⟩
  · cases h
  · cases h
  · exact .inl ⟨s, rfl⟩
  · exact .inr ⟨s, m, e, hm, rfl⟩

/-! ## Rounded numbers -/

structure Rounded (q : ℚ) (x : Float) : Prop where
  not_nan : x.isNaN = false
  near : ∃ n, Nearest q n ∧ ordinal x = clamp n

namespace Rounded
variable {q r : ℚ} {x y : Float}

theorem of_unpacked {u : UnpackedFloat} (h : IsRounding q u) :
    Rounded q (Float.ofModel (Float.Model.pack u)) := by
  refine ⟨?_, ordinalOf u, h.nearest, ordinal_ofModel_pack h.normalized⟩
  rw [isNaN_ofModel_pack h.normalized, h.not_nan]

theorem self (hx : x.isNaN = false) : Rounded (toRat x) x :=
  ⟨hx, ordinal x, nearest_level _, (clamp_ordinal x).symm⟩

theorem le (hx : Rounded q x) (hy : Rounded r y) (h : q ≤ r) : x ≤ y := by
  obtain ⟨m, hm, hxm⟩ := hx.near
  obtain ⟨n, hn, hyn⟩ := hy.near
  have := hm.le_of_le hn h
  rw [le_iff_ordinal hx.not_nan hy.not_nan, hxm, hyn]
  unfold clamp
  omega

theorem le_float (hx : Rounded q x) (hy : y.isNaN = false) (h : q ≤ toRat y) : x ≤ y :=
  hx.le (self hy) h

theorem float_le (hx : Rounded q x) (hy : y.isNaN = false) (h : toRat y ≤ q) : y ≤ x :=
  (self hy).le hx h

theorem ordinal_le (hx : Rounded q x) {n : Int} (hq : q ≤ level n) (hn : clamp n = n) :
    ordinal x ≤ n := by
  obtain ⟨m, hm, hxm⟩ := hx.near
  have := hm.le_of_le_level hq
  unfold clamp at hxm hn
  omega

theorem le_ordinal (hx : Rounded q x) {n : Int} (hq : level n ≤ q) (hn : clamp n = n) :
    n ≤ ordinal x := by
  obtain ⟨m, hm, hxm⟩ := hx.near
  have := hm.le_of_level_le hq
  unfold clamp at hxm hn
  omega

theorem nearest (hx : Rounded q x) (hfin : x.isFinite = true) : Nearest q (ordinal x) := by
  obtain ⟨n, hn, hxn⟩ := hx.near
  have hlt := isFinite_iff_ordinal.1 hfin
  have hord : ordinal x = n := by
    unfold clamp at hxn
    omega
  rwa [hord]

theorem ordinal_eq (hx : Rounded q x) (hy : Rounded q y) : ordinal x = ordinal y := by
  obtain ⟨m, hm, hxm⟩ := hx.near
  obtain ⟨n, hn, hyn⟩ := hy.near
  rw [hxm, hyn, hm.unique hn]

theorem ordinal_of_level {n : Int} (hx : Rounded (level n) x) (hn : clamp n = n) :
    ordinal x = n :=
  Int.le_antisymm (hx.ordinal_le le_rfl hn) (hx.le_ordinal le_rfl hn)

theorem ordinal_eq_zero (hx : Rounded 0 x) : ordinal x = 0 := by
  rw [← level_zero] at hx
  exact hx.ordinal_of_level rfl

end Rounded

/-- Every level is that of a float, up to infinity. -/
theorem exists_ordinal_eq (n : Int) : ∃ x : Float, x.isNaN = false ∧ ordinal x = clamp n := by
  obtain ⟨k, hk⟩ := exists_level_eq n
  have h := Rounded.of_unpacked (normalize_spec k (-1074) .positive)
  obtain ⟨m, hm, hord⟩ := h.near
  have hmn : m = n := hm.unique (by rw [← quantum, ← hk]; exact nearest_level n)
  exact ⟨_, h.not_nan, by rw [hord, hmn]⟩

/-! ## Sums and differences -/

theorem decreaseExponent_eq (m : Nat) {e d : Int} (h : d ≤ e) :
    ((decreaseExponent m e d).1 : ℚ) * 2 ^ d = m * 2 ^ e := by
  obtain ⟨k, rfl⟩ := Int.le.dest h
  have hk : (d + k - d).toNat = k := by omega
  unfold decreaseExponent
  dsimp only
  rw [hk, Nat.shiftLeft_eq, zpow_add₀ (by norm_num), zpow_natCast]
  push_cast
  ring

theorem apply_decreaseExponent (s : Sign) (m : Nat) {e d : Int} (h : d ≤ e) :
    ((s.apply (decreaseExponent m e d).1 : Int) : ℚ) * 2 ^ d = (s.apply m : Int) * 2 ^ e := by
  rw [apply_eq, apply_eq s m]
  push_cast
  rw [mul_assoc, decreaseExponent_eq m h, mul_assoc]

/-- Addition before packing. -/
theorem add_spec {u v : UnpackedFloat} (hu : Canonical u) (hv : Canonical v)
    (fu : u.isFinite = true) (fv : v.isFinite = true) :
    IsRounding (level (ordinalOf u) + level (ordinalOf v)) (u.add .binary64 v) := by
  obtain ⟨s, rfl⟩ | ⟨s, m, e, hm, rfl⟩ := finite_cases fu
  · rw [show ordinalOf (.zero s) = 0 from rfl, level_zero, zero_add]
    obtain ⟨t, rfl⟩ | ⟨t, n, d, hn, rfl⟩ := finite_cases fv
    · rw [show ordinalOf (.zero t) = 0 from rfl, level_zero]
      cases s <;> cases t <;> exact isRounding_zero _
    · exact .of_canonical hv rfl
  · obtain ⟨t, rfl⟩ | ⟨t, n, d, hn, rfl⟩ := finite_cases fv
    · rw [show ordinalOf (.zero t) = 0 from rfl, level_zero, add_zero]
      exact .of_canonical hu rfl
    · have hsum := normalize_spec (s.apply (decreaseExponent m e (min e d)).1 +
        t.apply (decreaseExponent n d (min e d)).1) (min e d) .positive
      rw [Int.cast_add, add_mul, apply_decreaseExponent s m (min_le_left _ _),
        apply_decreaseExponent t n (min_le_right _ _)] at hsum
      rw [level_ordinalOf hu, level_ordinalOf hv]
      exact hsum

theorem sub_eq_add_neg (u v : UnpackedFloat) :
    u.sub .binary64 v = u.add .binary64 v.neg := by
  rcases u with s | _ | s | ⟨s, m, e, hm⟩ <;> rcases v with t | _ | t | ⟨t, n, d, hn⟩ <;>
    try rfl
  simp only [UnpackedFloat.sub, UnpackedFloat.add, UnpackedFloat.neg, apply_neg,
    Int.sub_eq_add_neg]

theorem canonical_neg {u : UnpackedFloat} (h : Canonical u) : Canonical u.neg := by
  rcases u with s | _ | s | ⟨s, m, e, hm⟩ <;> exact h

theorem isFinite_neg (u : UnpackedFloat) : u.neg.isFinite = u.isFinite := by
  rcases u with s | _ | s | ⟨s, m, e, hm⟩ <;> rfl

theorem add_rounded {x y : Float} (hx : x.isFinite = true) (hy : y.isFinite = true) :
    Rounded (toRat x + toRat y) (x + y) :=
  .of_unpacked (add_spec (canonical_float x) (canonical_float y) hx hy)

theorem sub_rounded {x y : Float} (hx : x.isFinite = true) (hy : y.isFinite = true) :
    Rounded (toRat x - toRat y) (x - y) := by
  have h := add_spec (canonical_float x) (canonical_neg (canonical_float y)) hx
    ((isFinite_neg _).trans hy)
  rw [ordinalOf_neg, level_neg, ← sub_eq_add_neg, ← Rat.sub_eq_add_neg] at h
  exact .of_unpacked h

/-- The terms of a sum count as numbers only. -/
theorem ordinal_add_congr {x y v w : Float} (hx : x.isFinite = true) (hy : y.isFinite = true)
    (hv : v.isFinite = true) (hw : w.isFinite = true) (hxv : ordinal x = ordinal v)
    (hyw : ordinal y = ordinal w) : ordinal (x + y) = ordinal (v + w) := by
  have hr := add_rounded hx hy
  rw [toRat_eq_of_ordinal_eq hxv, toRat_eq_of_ordinal_eq hyw] at hr
  exact hr.ordinal_eq (add_rounded hv hw)

/-- Infinity and NaN absorb finite terms. -/
theorem add_of_not_isFinite {x y : Float} (hx : x.isFinite = true) (hy : y.isFinite = false) :
    x + y = y := by
  have hadd : x.toModel.unpack.add .binary64 y.toModel.unpack = y.toModel.unpack := by
    have hu : x.toModel.unpack.isFinite = true := hx
    have hv : y.toModel.unpack.isFinite = false := hy
    generalize x.toModel.unpack = u at hu
    generalize y.toModel.unpack = v at hv
    rcases v with t | _ | t | ⟨t, n, d, hn⟩
    · obtain ⟨s, rfl⟩ | ⟨s, m, e, hm, rfl⟩ := finite_cases hu <;> rfl
    · obtain ⟨s, rfl⟩ | ⟨s, m, e, hm, rfl⟩ := finite_cases hu <;> rfl
    · cases hv
    · cases hv
  have hc := canonical_float y
  show Float.ofModel (Float.Model.pack _) = _
  rw [hadd]
  exact unpack_injective ((unpack_ofModel_pack (.of_canonical hc)).trans (saturate_of_canonical hc))

/-! ## Products -/

theorem log2_le_log2 {m n : Nat} (h : m ≤ n) : m.log2 ≤ n.log2 := by
  rw [Nat.log2_eq_log_two, Nat.log2_eq_log_two]
  exact Nat.log_mono_right h

theorem apply_mul (s t : Sign) : (s * t).apply 1 = s.apply 1 * t.apply 1 := by
  cases s <;> cases t <;> rfl

/-- Multiplication before packing. A product of canonical floats is long enough to be rounded: one
factor has all its digits, or both have the least exponent. -/
theorem mul_spec {u v : UnpackedFloat} (hu : Canonical u) (hv : Canonical v)
    (fu : u.isFinite = true) (fv : v.isFinite = true) :
    IsRounding (level (ordinalOf u) * level (ordinalOf v)) (u.mul .binary64 v) := by
  obtain ⟨s, rfl⟩ | ⟨s, m, e, hm, rfl⟩ := finite_cases fu
  · rw [show ordinalOf (.zero s) = 0 from rfl, level_zero, zero_mul]
    obtain ⟨t, rfl⟩ | ⟨t, n, d, hn, rfl⟩ := finite_cases fv <;> exact isRounding_zero _
  · obtain ⟨t, rfl⟩ | ⟨t, n, d, hn, rfl⟩ := finite_cases fv
    · rw [show ordinalOf (.zero t) = 0 from rfl, level_zero, mul_zero]
      exact isRounding_zero _
    · rw [level_ordinalOf hu, level_ordinalOf hv]
      dsimp only [Canonical] at hu hv
      have hlong : e + d ≤ Format.binary64.targetExponent (totalExponent (m * n) (e + d)) := by
        rw [targetExponent_eq, totalExponent]
        by_cases hm₁ : 0x10000000000000 ≤ m
        · have h₁ := log2_le_log2 (hm₁.trans (Nat.le_mul_of_pos_right m hn))
          rw [show (0x10000000000000 : Nat).log2 = 52 by decide] at h₁
          omega
        by_cases hn₁ : 0x10000000000000 ≤ n
        · have h₁ := log2_le_log2 (hn₁.trans (Nat.le_mul_of_pos_left n hm))
          rw [show (0x10000000000000 : Nat).log2 = 52 by decide] at h₁
          omega
        omega
      have hround := roundWithAccuracy_spec (s * t) (m := m * n) (a := .exact)
        (q := (m * n : Nat) * 2 ^ (e + d)) (mul_div_cancel_right₀ _ (by positivity)) hlong
      have hprod : ((s.apply m : Int) : ℚ) * 2 ^ e * ((t.apply n : Int) * 2 ^ d) =
          ((s * t).apply 1 : Int) * ((m * n : Nat) * 2 ^ (e + d)) := by
        rw [apply_mul, zpow_add₀ (by norm_num), apply_eq s m, apply_eq t n]
        push_cast
        ring
      rw [hprod]
      exact hround

theorem mul_rounded {x y : Float} (hx : x.isFinite = true) (hy : y.isFinite = true) :
    Rounded (toRat x * toRat y) (x * y) :=
  .of_unpacked (mul_spec (canonical_float x) (canonical_float y) hx hy)

/-! ## Zeros -/

theorem zero_cases {x : Float} (hx : x.isNaN = false) (h : ordinal x = 0) :
    x = 0.0 ∨ x = -0.0 := by
  have hc := canonical_float x
  have hn : x.toModel.unpack.isNaN = false := hx
  have hu : x.toModel.unpack = .zero .positive ∨ x.toModel.unpack = .zero .negative := by
    unfold ordinal at h
    generalize x.toModel.unpack = u at hc hn h
    rcases u with s | _ | s | ⟨s, m, e, hm⟩
    · cases s <;> cases h
    · cases hn
    · cases s
      · exact .inr rfl
      · exact .inl rfl
    · dsimp only [Canonical] at hc
      cases s <;> dsimp only [ordinalOf, Sign.apply] at h <;> omega
  exact hu.imp (fun h => unpack_injective (h.trans rfl)) (fun h => unpack_injective (h.trans rfl))

/-- Both terms are multiples of the least positive float, so no sum is too small for a float. -/
theorem sum_eq_zero {x y : Float} (hx : x.isFinite = true) (hy : y.isFinite = true)
    (h : ordinal (x + y) = 0) : toRat x + toRat y = 0 := by
  obtain ⟨j, hj⟩ := exists_level_eq (ordinal x)
  obtain ⟨k, hk⟩ := exists_level_eq (ordinal y)
  have hr := add_rounded hx hy
  have hq : toRat x + toRat y = (j + k : Int) * quantum := by
    rw [toRat, toRat, hj, hk]
    push_cast
    ring
  rw [hq] at hr ⊢
  have hpos := quantum_pos
  have h₁ := level_one
  have h₂ := level_neg 1
  generalize quantum = c at *
  obtain hlt | heq | hgt := lt_trichotomy (j + k) 0
  · have hle : ((j + k : Int) : ℚ) ≤ -1 := by exact_mod_cast (by omega : j + k ≤ -1)
    have := hr.ordinal_le (n := -1) (by rw [h₂, h₁]; nlinarith) rfl
    omega
  · rw [heq, Int.cast_zero, zero_mul]
  · have hle : (1 : ℚ) ≤ ((j + k : Int) : ℚ) := by exact_mod_cast (by omega : 1 ≤ j + k)
    have := hr.le_ordinal (n := 1) (by rw [h₁]; nlinarith) rfl
    omega

/-- Terms that cancel give the positive zero. -/
theorem add_cancelled {u v : UnpackedFloat} (hu : Canonical u) (hv : Canonical v)
    (fu : u.isFinite = true) (fv : v.isFinite = true) (hu₀ : ordinalOf u ≠ 0)
    (h : level (ordinalOf u) + level (ordinalOf v) = 0) :
    u.add .binary64 v = .zero .positive := by
  obtain ⟨s, rfl⟩ | ⟨s, m, e, hm, rfl⟩ := finite_cases fu
  · exact absurd rfl hu₀
  obtain ⟨t, rfl⟩ | ⟨t, n, d, hn, rfl⟩ := finite_cases fv
  · rw [show ordinalOf (.zero t) = 0 from rfl, level_zero, add_zero, ← level_zero, level_inj] at h
    exact absurd h hu₀
  · rw [level_ordinalOf hu, level_ordinalOf hv, ← apply_decreaseExponent s m (min_le_left e d),
      ← apply_decreaseExponent t n (min_le_right e d), ← add_mul] at h
    have hpow : (2 : ℚ) ^ min e d ≠ 0 := zpow_ne_zero _ (by norm_num)
    have hsum : s.apply (decreaseExponent m e (min e d)).1 +
        t.apply (decreaseExponent n d (min e d)).1 = 0 := by
      exact_mod_cast (mul_eq_zero.1 h).resolve_right hpow
    have hadd : UnpackedFloat.add .binary64 (.finite s m e hm) (.finite t n d hn) =
        UnpackedFloat.normalize .binary64 (s.apply (decreaseExponent m e (min e d)).1 +
          t.apply (decreaseExponent n d (min e d)).1) (min e d) .positive := rfl
    rw [hadd, hsum]
    rfl

theorem isFinite_of_add {x y : Float} (hx : x.isFinite = true) (hn : (x + y).isNaN = false)
    (h : ordinal (x + y) = 0) : y.isFinite = true := by
  cases hy : y.isFinite with
  | true => rfl
  | false =>
    rw [add_of_not_isFinite hx hy] at hn h
    have hfin : y.isFinite = true := isFinite_iff_ordinal.2 ⟨hn, by omega, by omega⟩
    rw [hy] at hfin
    cases hfin

/-- A zero sum is the positive zero, unless both terms are zeros. -/
theorem add_eq_zero {x y : Float} (hx : x.isFinite = true) (hx₀ : ordinal x ≠ 0)
    (hn : (x + y).isNaN = false) (h : ordinal (x + y) = 0) : x + y = 0.0 := by
  have hy := isFinite_of_add hx hn h
  have hadd := add_cancelled (canonical_float x) (canonical_float y) hx hy hx₀ (sum_eq_zero hx hy h)
  show Float.ofModel (Float.Model.pack (x.toModel.unpack.add .binary64 y.toModel.unpack)) = _
  rw [hadd]
  rfl

/-! ## Absolute values -/

theorem unpack_abs (x : Float) : x.abs.toModel.unpack = x.toModel.unpack.abs := by
  have hc : Canonical x.toModel.unpack.abs := by
    have hc := canonical_float x
    generalize x.toModel.unpack = u at hc ⊢
    cases u <;> exact hc
  exact (unpack_ofModel_pack (.of_canonical hc)).trans (saturate_of_canonical hc)

theorem isFinite_abs (x : Float) : x.abs.isFinite = x.isFinite := by
  show x.abs.toModel.unpack.isFinite = x.toModel.unpack.isFinite
  rw [unpack_abs]
  cases x.toModel.unpack <;> rfl

theorem ordinal_abs (x : Float) : ordinal x.abs = |ordinal x| := by
  have hc := canonical_float x
  rw [ordinal, ordinal, unpack_abs]
  generalize x.toModel.unpack = u at hc ⊢
  rcases u with s | _ | s | ⟨s, m, e, hm⟩
  · cases s <;> rfl
  · rfl
  · rfl
  · dsimp only [Canonical] at hc
    have hnonneg : 0 ≤ (e + 1074) * 0x10000000000000 + m := by omega
    cases s with
    | positive => exact (abs_of_nonneg hnonneg).symm
    | negative => exact ((abs_of_nonpos (neg_nonpos.2 hnonneg)).trans (neg_neg _)).symm

theorem level_abs (n : Int) : level |n| = |level n| := by
  obtain h | h := le_total 0 n
  · rw [abs_of_nonneg h, abs_of_nonneg (level_zero ▸ level_le_level.2 h)]
  · rw [abs_of_nonpos h, abs_of_nonpos (level_zero ▸ level_le_level.2 h), level_neg]

theorem toRat_abs (x : Float) : toRat x.abs = |toRat x| := by
  rw [toRat, ordinal_abs, level_abs, toRat]

/-! ## Counts -/

theorem toFloat_rounded (k : UInt64) : Rounded k.toNat k.toFloat := by
  have h := normalize_spec k.toNat 0 .positive
  rw [zpow_zero, mul_one, Int.cast_natCast] at h
  exact .of_unpacked h

theorem exists_level_natCast {m : Nat} (hm : m ≤ 0x20000000000000) :
    ∃ n, clamp n = n ∧ level n = m := by
  obtain rfl | hpos := Nat.eq_zero_or_pos m
  · exact ⟨0, rfl, level_zero⟩
  -- Digits are appended until the mantissa has its full length.
  let s := 52 - m.log2
  have hlog : m.log2 ≤ 53 := log2_le_log2 hm
  have hlead : 0x10000000000000 ≤ m * 2 ^ s :=
    calc 2 ^ 52 ≤ 2 ^ (m.log2 + s) := Nat.pow_le_pow_right (by decide) (by omega)
      _ = 2 ^ m.log2 * 2 ^ s := pow_add ..
      _ ≤ m * 2 ^ s := Nat.mul_le_mul_right _ (Nat.log2_self_le hpos.ne')
  have hle : m * 2 ^ s ≤ 0x20000000000000 := by
    obtain hlt | heq := hlog.lt_or_eq
    · calc m * 2 ^ s ≤ 2 ^ (m.log2 + 1) * 2 ^ s := Nat.mul_le_mul_right _ Nat.lt_log2_self.le
        _ = 2 ^ (m.log2 + 1 + s) := (pow_add ..).symm
        _ ≤ 2 ^ 53 := Nat.pow_le_pow_right (by decide) (by omega)
    · rwa [show s = 0 by omega, pow_zero, mul_one]
  refine ⟨(-(s : Int) + 1074) * 0x10000000000000 + (m * 2 ^ s : Nat), ?_, ?_⟩
  · unfold clamp
    omega
  · rw [level_eq (by omega) hle fun _ => hlead]
    push_cast
    rw [mul_assoc, ← zpow_natCast, ← zpow_add₀ (by norm_num), add_neg_cancel, zpow_zero, mul_one]

theorem toRat_toFloat {k : UInt64} (hk : k.toNat ≤ 0x20000000000000) :
    toRat k.toFloat = k.toNat := by
  obtain ⟨n, hn, hlevel⟩ := exists_level_natCast hk
  have hround := toFloat_rounded k
  rw [← hlevel] at hround ⊢
  rw [toRat, hround.ordinal_of_level hn]

theorem toRat_of_whole {x : Float} {k : Nat} (h : x = (UInt64.ofNat k).toFloat)
    (hk : k ≤ 0x20000000000000) : toRat x = k := by
  have hcount : (UInt64.ofNat k).toNat = k := by
    rw [UInt64.toNat_ofNat']
    omega
  rw [h, toRat_toFloat (by omega), hcount]

theorem toFloat_mono {j k : UInt64} (h : j ≤ k) : j.toFloat ≤ k.toFloat :=
  (toFloat_rounded j).le (toFloat_rounded k) (by exact_mod_cast UInt64.le_iff_toNat_le.1 h)

theorem isFinite_toFloat (k : UInt64) : k.toFloat.isFinite = true := by
  have hzero : (0 : UInt64).toFloat.isFinite = true := by decide +kernel
  have htop : (0xffffffffffffffff : UInt64).toFloat.isFinite = true := by decide +kernel
  refine isFinite_of_le_of_le hzero htop (toFloat_mono ?_) (toFloat_mono ?_)
  · exact UInt64.le_iff_toNat_le.2 (Nat.zero_le _)
  · exact UInt64.le_iff_toNat_le.2 (Nat.le_of_lt_succ k.toNat_lt)

end ZeroSearch.Binary64
