import Mathlib
import ZeroSearch.Binary64.Order

/-!
# Levels

`level n` is the rational number that the float with ordinal `n` stands for. Levels are defined for
all ordinals. The ordinal of infinity has the level `2 ^ 1024`, which would be the next float, and
that is how rounding treats it. From zero on, the exponent of a float is the quotient of its ordinal
by `2 ^ 52`, so consecutive levels of one binade are one `gap` apart.

`Nearest q n` says that rounding takes the number `q` to ordinal `n`. Ordinals and mantissas have
the same parity, so ties go to even ordinals. What rounding needs of its operations follows from
`Nearest.le_of_le`: it is monotone, and it fixes the levels.
-/

namespace ZeroSearch.Binary64

/-! ## Magnitudes -/

/-- The exponent of the float with ordinal `n`. -/
def exponentAt (n : Nat) : Int := max (n / 0x10000000000000 : Nat) 1 - 1075

/-- The distance of the floats with ordinals `n` and `n + 1`. -/
def gap (n : Nat) : ℚ := 2 ^ exponentAt n

def magnitude (n : Nat) : ℚ := ((n : Int) - (exponentAt n + 1074) * 0x10000000000000 : Int) * gap n

theorem le_exponentAt (n : Nat) : -1074 ≤ exponentAt n := by
  unfold exponentAt
  omega

theorem gap_pos (n : Nat) : 0 < gap n := by
  unfold gap
  positivity

section
variable {n m : Nat} {e : Int}

theorem exponentAt_eq (hn : (n : Int) = (e + 1074) * 0x10000000000000 + m) (he : -1074 ≤ e)
    (hm : m < 0x20000000000000) (hlead : -1074 < e → 0x10000000000000 ≤ m) :
    exponentAt n = e := by
  unfold exponentAt
  omega

theorem magnitude_eq (hn : (n : Int) = (e + 1074) * 0x10000000000000 + m) (he : -1074 ≤ e)
    (hm : m < 0x20000000000000) (hlead : -1074 < e → 0x10000000000000 ≤ m) :
    magnitude n = m * 2 ^ e := by
  rw [magnitude, gap, exponentAt_eq hn he hm hlead, hn]
  push_cast
  ring

/-- A mantissa that is one digit too long. -/
theorem magnitude_carry (hn : (n : Int) = (e + 1074) * 0x10000000000000 + 0x20000000000000)
    (he : -1074 ≤ e) : magnitude n = 0x20000000000000 * 2 ^ e := by
  have h := magnitude_eq (n := n) (e := e + 1) (m := 0x10000000000000) (by push_cast; omega)
    (by omega) (by omega) (by omega)
  rw [h, zpow_add₀ (by norm_num)]
  push_cast
  ring

end

theorem exponentAt_succ (n : Nat) :
    exponentAt (n + 1) = exponentAt n ∨
      exponentAt (n + 1) = exponentAt n + 1 ∧
        (n : Int) + 1 = (exponentAt n + 1074) * 0x10000000000000 + 0x20000000000000 := by
  unfold exponentAt
  omega

/-- The gap doubles at the start of a binade, which has an even ordinal. -/
theorem gap_succ (n : Nat) :
    gap (n + 1) = gap n ∨ gap (n + 1) = 2 * gap n ∧ Even (n + 1) := by
  obtain h | ⟨h, hn⟩ := exponentAt_succ n
  · exact .inl (by rw [gap, gap, h])
  · refine .inr ⟨?_, ?_⟩
    · rw [gap, gap, h, zpow_add_one₀ (by norm_num), mul_comm]
    · rw [Nat.even_iff]
      omega

theorem gap_le_succ (n : Nat) : gap n ≤ gap (n + 1) := by
  have hpos := gap_pos n
  rcases gap_succ n with h | ⟨h, -⟩
  · exact h.ge
  · linarith

theorem magnitude_succ (n : Nat) : magnitude (n + 1) = magnitude n + gap n := by
  obtain h | ⟨-, hn⟩ := exponentAt_succ n
  · rw [magnitude, magnitude, gap, gap, h]
    push_cast
    ring
  · have hm : (n : Int) - (exponentAt n + 1074) * 0x10000000000000 = 0x20000000000000 - 1 := by
      omega
    rw [magnitude_carry (e := exponentAt n) (by push_cast; omega) (le_exponentAt n), magnitude, gap,
      hm]
    push_cast
    ring

theorem magnitude_zero : magnitude 0 = 0 := by
  simp [magnitude, exponentAt]

/-- A float that is `k` steps from zero is at least `k` of its gaps away from zero. -/
theorem mul_gap_le_magnitude {k n : Nat} (hk : k ≤ n) (hlead : k ≤ 0x10000000000000) :
    k * gap n ≤ magnitude n := by
  have hm : (k : Int) ≤ (n : Int) - (exponentAt n + 1074) * 0x10000000000000 := by
    unfold exponentAt
    omega
  have hm' : (k : ℚ) ≤ ((n : Int) - (exponentAt n + 1074) * 0x10000000000000 : Int) := by
    exact_mod_cast hm
  exact mul_le_mul_of_nonneg_right hm' (gap_pos n).le

/-- A float is at least as far from zero as from the next float, zero apart. -/
theorem gap_le_magnitude {n : Nat} (h : 0 < n) : gap n ≤ magnitude n := by
  simpa using mul_gap_le_magnitude (k := 1) h (by norm_num)

/-! ## Levels -/

def level (n : Int) : ℚ := if 0 ≤ n then magnitude n.toNat else -magnitude (-n).toNat

theorem level_natCast (n : Nat) : level n = magnitude n := by
  simp [level]

@[simp]
theorem level_zero : level 0 = 0 := by
  simpa [magnitude_zero] using level_natCast 0

@[simp]
theorem level_neg (n : Int) : level (-n) = -level n := by
  obtain h | h | h := lt_trichotomy n 0
  · simp [level, h.le, h.not_ge]
  · simp [h]
  · simp [level, h.le, h.not_ge]

/-- The level of a mantissa and an exponent, where the mantissa may be one digit too long. -/
theorem level_eq {e : Int} {m : Nat} (he : -1074 ≤ e) (hm : m ≤ 0x20000000000000)
    (hlead : -1074 < e → 0x10000000000000 ≤ m) :
    level ((e + 1074) * 0x10000000000000 + m) = m * 2 ^ e := by
  obtain ⟨n, hn⟩ :=
    Int.eq_ofNat_of_zero_le (a := (e + 1074) * 0x10000000000000 + m) (by omega)
  rw [hn, level_natCast]
  obtain hm | rfl := hm.lt_or_eq
  · exact magnitude_eq hn.symm he hm hlead
  · rw [magnitude_carry (e := e) (by rw [← hn]; rfl) he]
    norm_num

theorem level_succ_of_nonneg {n : Int} (h : 0 ≤ n) : level (n + 1) = level n + gap n.toNat := by
  lift n to Nat using h
  have := magnitude_succ n
  rw [← level_natCast, ← level_natCast] at this
  simpa using this

theorem level_lt_succ (n : Int) : level n < level (n + 1) := by
  by_cases h : 0 ≤ n
  · rw [level_succ_of_nonneg h]
    linarith [gap_pos n.toNat]
  · have hs := level_succ_of_nonneg (n := -n - 1) (by omega)
    rw [show -n - 1 + 1 = -n by omega, level_neg, show -n - 1 = -(n + 1) by omega, level_neg] at hs
    linarith [gap_pos (-(n + 1)).toNat]

theorem level_strictMono : StrictMono level := strictMono_int_of_lt_succ level_lt_succ

@[simp]
theorem level_lt_level {m n : Int} : level m < level n ↔ m < n := level_strictMono.lt_iff_lt

@[simp]
theorem level_le_level {m n : Int} : level m ≤ level n ↔ m ≤ n := level_strictMono.le_iff_le

@[simp]
theorem level_inj {m n : Int} : level m = level n ↔ m = n := level_strictMono.injective.eq_iff

theorem level_succ_le_double {n : Int} (h : 0 < n) : level (n + 1) ≤ 2 * level n := by
  rw [level_succ_of_nonneg h.le]
  have := gap_le_magnitude (n := n.toNat) (by omega)
  rw [← level_natCast, Int.toNat_of_nonneg h.le] at this
  linarith

/-! ## Steps -/

/-- The step from one level to the next. -/
def rise (n : Int) : ℚ := level (n + 1) - level n

theorem rise_pos (n : Int) : 0 < rise n := sub_pos.2 (level_lt_succ n)

theorem rise_natCast (n : Nat) : rise n = gap n := by
  rw [rise, level_succ_of_nonneg (Int.natCast_nonneg n), Int.toNat_natCast, add_sub_cancel_left]

theorem rise_neg (n : Int) : rise (-n - 1) = rise n := by
  have h : -(n + 1) = -n - 1 := by omega
  rw [rise, rise, Int.sub_add_cancel, ← h, level_neg, level_neg]
  ring

/-- Steps at most double from one to the next, and those that do start from an even ordinal. -/
theorem rise_succ (n : Int) :
    rise (n + 1) ≤ rise n ∨ rise (n + 1) = 2 * rise n ∧ Even (n + 1) := by
  obtain h | rfl | h : 0 ≤ n ∨ n = -1 ∨ n + 2 ≤ 0 := by omega
  · lift n to Nat using h
    have hgap := gap_succ n
    rw [← rise_natCast, ← rise_natCast, Nat.cast_succ] at hgap
    rcases hgap with h | ⟨h, heven⟩
    · exact .inl h.le
    · exact .inr ⟨h, by exact_mod_cast heven⟩
  · exact .inl (rise_neg 0).ge
  · obtain ⟨m, hm⟩ := Int.eq_ofNat_of_zero_le (a := -n - 2) (by omega)
    obtain rfl : n = -(m + 1 : Nat) - 1 := by omega
    refine .inl ?_
    rw [show -((m + 1 : Nat) : Int) - 1 + 1 = -(m : Int) - 1 by omega, rise_neg, rise_neg,
      rise_natCast, rise_natCast]
    exact gap_le_succ m

theorem rise_le_double (n : Int) : rise n ≤ 2 * rise (n + 1) := by
  have hpos := rise_pos (n + 1)
  have h := rise_succ (-(n + 1) - 1)
  rw [show -(n + 1) - 1 + 1 = -n - 1 by omega, rise_neg, rise_neg] at h
  rcases h with h | ⟨h, -⟩ <;> linarith

/-- Steps are small beside the levels they start from and lead to. -/
theorem four_rise_le {n : Int} (h : 4 ≤ n) : 4 * rise n ≤ level n ∧ 4 * rise (n - 1) ≤ level n := by
  obtain ⟨m, hm⟩ := Int.eq_ofNat_of_zero_le (a := n - 1) (by omega)
  obtain rfl : n = (m + 1 : Nat) := by omega
  have hn : 4 * gap (m + 1) ≤ magnitude (m + 1) :=
    mul_gap_le_magnitude (k := 4) (by omega) (by norm_num)
  rw [show ((m + 1 : Nat) : Int) - 1 = m by omega, rise_natCast, rise_natCast, level_natCast]
  exact ⟨hn, by linarith [gap_le_succ m]⟩

/-! ## The unit of all levels -/

/-- The least positive float. -/
def quantum : ℚ := 2 ^ (-1074 : Int)

theorem quantum_pos : 0 < quantum := by
  unfold quantum
  positivity

theorem level_one : level 1 = quantum := by
  have := level_eq (e := -1074) (m := 1) le_rfl (by norm_num) (by norm_num)
  simpa [quantum] using this

theorem exists_gap_eq (n : Nat) : ∃ k : Nat, gap n = k * quantum := by
  have he := le_exponentAt n
  refine ⟨2 ^ (exponentAt n + 1074).toNat, ?_⟩
  rw [gap, quantum, Nat.cast_pow, Nat.cast_ofNat, ← zpow_natCast, ← zpow_add₀ (by norm_num),
    Int.toNat_of_nonneg (by omega)]
  congr 1
  omega

theorem exists_level_eq (n : Int) : ∃ k : Int, level n = k * quantum := by
  suffices h : ∀ n : Nat, ∃ k : Int, level n = k * quantum by
    obtain ⟨n, rfl | rfl⟩ := n.eq_nat_or_neg
    · exact h n
    · obtain ⟨k, hk⟩ := h n
      exact ⟨-k, by rw [level_neg, hk]; push_cast; ring⟩
  intro n
  induction n with
  | zero => exact ⟨0, by simp⟩
  | succ n ih =>
    obtain ⟨k, hk⟩ := ih
    obtain ⟨j, hj⟩ := exists_gap_eq n
    refine ⟨k + j, ?_⟩
    rw [level_natCast] at hk ⊢
    rw [magnitude_succ, hk, hj]
    push_cast
    ring

/-- Up to `2 ^ 53` the levels are the multiples of the least positive float. -/
theorem level_of_le {n : Nat} (h : n ≤ 0x20000000000000) : level n = n * quantum := by
  have := level_eq (e := -1074) le_rfl h (by norm_num)
  simpa [quantum] using this

theorem quantum_le_level_sub {m n : Int} (h : m < n) : quantum ≤ level n - level m := by
  obtain ⟨j, hj⟩ := exists_level_eq m
  obtain ⟨k, hk⟩ := exists_level_eq n
  have hq := quantum_pos
  have hlt := level_lt_level.2 h
  rw [hj, hk] at hlt ⊢
  have hjk : (j : ℚ) < k := lt_of_mul_lt_mul_right hlt hq.le
  have hle : (j : ℚ) + 1 ≤ k := by exact_mod_cast hjk
  nlinarith

/-! ## Nearest ordinals -/

/-- `n` is the ordinal next to `q`, an even one if two are equally near. -/
structure Nearest (q : ℚ) (n : Int) : Prop where
  below : level (n - 1) + level n ≤ 2 * q
  above : 2 * q ≤ level n + level (n + 1)
  strict : ¬ Even n → level (n - 1) + level n < 2 * q ∧ 2 * q < level n + level (n + 1)

theorem nearest_level (n : Int) : Nearest (level n) n := by
  have h₁ := level_lt_succ (n - 1)
  have h₂ := level_lt_succ n
  rw [Int.sub_add_cancel] at h₁
  exact ⟨by linarith, by linarith, fun _ => ⟨by linarith, by linarith⟩⟩

theorem nearest_zero : Nearest 0 0 := by
  simpa using nearest_level 0

namespace Nearest
variable {q r : ℚ} {m n : Int}

theorem le_of_le (hm : Nearest q m) (hn : Nearest r n) (h : q ≤ r) : m ≤ n := by
  by_contra hlt
  have h₁ : level n ≤ level (m - 1) := level_le_level.2 (by omega)
  have h₂ : level (n + 1) ≤ level m := level_le_level.2 (by omega)
  have hb := hm.below
  have ha := hn.above
  -- Both numbers are ties between `n` and `m`, which are neighbours and cannot both be even.
  have hmn : m - 1 = n := level_inj.1 (by linarith)
  by_cases heven : Even n
  · have hodd : ¬ Even m := by
      rw [show m = n + 1 by omega]
      exact Int.not_even_iff_odd.2 heven.add_one
    linarith [(hm.strict hodd).1]
  · linarith [(hn.strict heven).2]

theorem unique (hm : Nearest q m) (hn : Nearest q n) : m = n :=
  le_antisymm (hm.le_of_le hn le_rfl) (hn.le_of_le hm le_rfl)

theorem neg (h : Nearest q n) : Nearest (-q) (-n) := by
  have e₁ : level (-n - 1) = -level (n + 1) := by rw [← level_neg]; congr 1; omega
  have e₂ : level (-n + 1) = -level (n - 1) := by rw [← level_neg]; congr 1; omega
  have hb := h.below
  have ha := h.above
  refine ⟨by rw [e₁, level_neg]; linarith, by rw [e₂, level_neg]; linarith, fun hodd => ?_⟩
  have hs := h.strict (by simpa using hodd)
  rw [e₁, e₂, level_neg]
  exact ⟨by linarith [hs.2], by linarith [hs.1]⟩

theorem le_of_le_level (h : Nearest q m) (hq : q ≤ level n) : m ≤ n :=
  h.le_of_le (nearest_level n) hq

theorem le_of_level_le (h : Nearest q m) (hq : level n ≤ q) : n ≤ m :=
  (nearest_level n).le_of_le h hq

/-- A number from level 4 on is rounded by at most an eighth of the result. -/
theorem close {q : ℚ} {n : Int} (h : Nearest q n) (hn : 4 ≤ n) :
    7 * level n ≤ 8 * q ∧ 8 * q ≤ 9 * level n := by
  obtain ⟨h₁, h₂⟩ := four_rise_le hn
  have hb := h.below
  have ha := h.above
  rw [rise] at h₁ h₂
  rw [Int.sub_add_cancel] at h₂
  constructor <;> linarith

/-- What is nearest to a number of units, where the levels are one unit apart. -/
theorem of_units {c : ℚ} {n : Nat} (h : Nearest (c * quantum) (n + 1 : Nat))
    (hn : n + 2 ≤ 0x20000000000000) :
    2 * n + 1 ≤ 2 * c ∧ 2 * c ≤ 2 * n + 3 ∧ (Even n → 2 * n + 1 < 2 * c ∧ 2 * c < 2 * n + 3) := by
  have hq := quantum_pos
  have h₀ : level ((n + 1 : Nat) - 1) = n * quantum := by
    rw [show ((n + 1 : Nat) : Int) - 1 = n by omega]
    exact level_of_le (by omega)
  have h₁ : level (n + 1 : Nat) = (n + 1) * quantum := by
    exact_mod_cast level_of_le (n := n + 1) (by omega)
  have h₂ : level ((n + 1 : Nat) + 1) = (n + 2) * quantum := by
    exact_mod_cast level_of_le hn
  have hb := h.below
  have ha := h.above
  have hs := h.strict
  rw [h₀, h₁] at hb hs
  rw [h₁, h₂] at ha
  rw [h₂] at hs
  refine ⟨le_of_mul_le_mul_right (by linarith) hq, le_of_mul_le_mul_right (by linarith) hq,
    fun heven => ?_⟩
  obtain ⟨hlt, hgt⟩ := hs (by exact_mod_cast Nat.not_even_iff_odd.2 heven.add_one)
  exact ⟨lt_of_mul_lt_mul_right (by linarith) hq.le, lt_of_mul_lt_mul_right (by linarith) hq.le⟩

end Nearest

end ZeroSearch.Binary64
