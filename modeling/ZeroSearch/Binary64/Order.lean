/-!
# The order of binary64 numbers

`ordinal x` counts the steps from zero to `x` along the floats, downwards for a negative `x`; both
zeros have ordinal 0 and the infinities stand one step beyond the largest finite floats. Away from
NaN the comparisons of floats are those of their ordinals (`lt_iff_ordinal`, `le_iff_ordinal`), so a
strictly increasing sequence of floats below a bound comes to an end.
-/

namespace ZeroSearch.Binary64

open Float.Model Float.Model.UnpackedFloat

/-! ## Canonical forms -/

/-- What a bit pattern unpacks to: the mantissa is below `2 ^ 53`, and at least `2 ^ 52` unless the
exponent is the least one. -/
def Canonical : UnpackedFloat → Prop
  | .finite _ m e _ =>
    m < 0x20000000000000 ∧ -1074 ≤ e ∧ e ≤ 971 ∧ (-1074 < e → 0x10000000000000 ≤ m)
  | _ => True

theorem canonical_unpack (b : BitVec Format.binary64.numBits) :
    Canonical (UnpackedFloat.unpack .binary64 b) := by
  have hbias : ((Format.binary64.exponentBias : Nat) : Int) = 1023 := rfl
  have hwidth : ((Format.binary64.mantissaBitsWithoutImplicit : Nat) : Int) = 52 := rfl
  have he : (unpackExponent b).toNat < 2048 := (unpackExponent b).isLt
  have hm : (unpackMantissa b).toNat < 2 ^ 52 := (unpackMantissa b).isLt
  delta UnpackedFloat.unpack
  dsimp only
  by_cases htop : unpackExponent b = -1#_
  · rw [if_pos htop]
    by_cases hzero : unpackMantissa b = 0#_
    · rw [if_pos hzero]; trivial
    · rw [if_neg hzero]; trivial
  have htop' : (unpackExponent b).toNat ≠ 2047 := fun h =>
    htop (BitVec.eq_of_toNat_eq (by rw [h]; rfl))
  rw [if_neg htop]
  by_cases hleast : unpackExponent b = 0#_
  · rw [if_pos hleast]
    have hleast' : (unpackExponent b).toNat = 0 := by rw [hleast]; rfl
    by_cases hzero : unpackMantissa b = 0#_
    · rw [dif_pos hzero]; trivial
    · rw [dif_neg hzero]
      dsimp only [Canonical]
      simp only [hbias, hwidth, hleast']
      omega
  · rw [if_neg hleast]
    have hleast' : (unpackExponent b).toNat ≠ 0 := fun h =>
      hleast (BitVec.eq_of_toNat_eq (by rw [h]; rfl))
    have happend : (1#1 ++ unpackMantissa b).toNat = 2 ^ 52 + (unpackMantissa b).toNat := by
      rw [BitVec.toNat_append, ← Nat.shiftLeft_add_eq_or_of_lt (unpackMantissa b).isLt]
      simp [Nat.shiftLeft_eq]
    dsimp only [Canonical]
    simp only [hbias, hwidth, happend]
    omega

/-! ## Ordinals -/

def ordinalOf : UnpackedFloat → Int
  | .notANumber => 0
  | .zero _ => 0
  | .infinity s => s.apply 0x7ff0000000000000
  | .finite s m e _ => s.apply ((e + 1074) * 0x10000000000000 + m)

def ordinal (x : Float) : Int := ordinalOf x.toModel.unpack

/-! ## Comparison of ordinals

Comparing first the exponents and then the mantissas of canonical magnitudes is comparing
`(e + 1074) * 2 ^ 52 + m`, because a mantissa with a larger exponent has its leading bit set. -/

theorem compare_lex {e₁ e₂ : Int} {m₁ m₂ : Nat}
    (h₁ : m₁ < 0x20000000000000 ∧ -1074 ≤ e₁ ∧ (-1074 < e₁ → 0x10000000000000 ≤ m₁))
    (h₂ : m₂ < 0x20000000000000 ∧ -1074 ≤ e₂ ∧ (-1074 < e₂ → 0x10000000000000 ≤ m₂)) :
    (compare e₁ e₂).then (compare m₁ m₂) =
      compare ((e₁ + 1074) * 0x10000000000000 + m₁) ((e₂ + 1074) * 0x10000000000000 + m₂) := by
  simp only [compare, compareOfLessAndEq]
  obtain h | h | h := Int.lt_trichotomy e₁ e₂
  · rw [if_pos h]
    show Ordering.lt = _
    rw [if_pos (by omega)]
  · subst h
    rw [if_neg (by omega), if_pos rfl]
    show (if m₁ < m₂ then Ordering.lt else _) = _
    obtain h | h | h := Nat.lt_trichotomy m₁ m₂
    · rw [if_pos h, if_pos (by omega)]
    · subst h; simp
    · rw [if_neg (by omega), if_neg (by omega), if_neg (by omega), if_neg (by omega)]
  · rw [if_neg (by omega), if_neg (by omega)]
    show Ordering.gt = _
    rw [if_neg (by omega), if_neg (by omega)]

theorem compare_neg (a b : Int) : compare (-a) (-b) = (compare a b).swap := by
  simp only [compare, compareOfLessAndEq]
  obtain h | h | h := Int.lt_trichotomy a b
  · rw [if_neg (by omega), if_neg (by omega), if_pos h]; rfl
  · subst h; simp
  · rw [if_pos (by omega), if_neg (by omega), if_neg (by omega)]; rfl

theorem compare_lt {a b : Int} (h : a < b) : compare a b = .lt := by
  simp only [compare, compareOfLessAndEq, if_pos h]

theorem compare_gt {a b : Int} (h : b < a) : compare a b = .gt := by
  simp only [compare, compareOfLessAndEq]
  rw [if_neg (by omega), if_neg (by omega)]

theorem ne_notANumber {u : UnpackedFloat} (h : u.isNaN = false) : u ≠ .notANumber := by
  rintro rfl
  cases h

theorem compare_eq_ordinal {u v : UnpackedFloat} (hu : Canonical u) (hv : Canonical v)
    (nu : u.isNaN = false) (nv : v.isNaN = false) :
    u.compare v = some (compare (ordinalOf u) (ordinalOf v)) := by
  rcases u with s | _ | s | ⟨s, m, e, hm⟩
  case notANumber => exact absurd rfl (ne_notANumber nu)
  all_goals
    rcases v with t | _ | t | ⟨t, n, d, hn⟩
    case notANumber => exact absurd rfl (ne_notANumber nv)
  all_goals
    dsimp only [Canonical] at hu hv
    cases s <;> cases t
  all_goals
    refine congrArg some ?_
    dsimp only [ordinalOf, Sign.apply]
  all_goals first
    | rfl
    | exact (compare_lt (by omega)).symm
    | exact (compare_gt (by omega)).symm
    | rw [compare_neg, compare_lex (by omega) (by omega)]
    | exact compare_lex (by omega) (by omega)

/-! ## Comparisons of floats -/

theorem lt_iff_compare {a b : Float} :
    a < b ↔ a.toModel.unpack.compare b.toModel.unpack = some .lt := by
  show decide (UnpackedFloat.lt _ _ = true) = true ↔ _
  rw [decide_eq_true_iff, UnpackedFloat.lt, beq_iff_eq]

theorem le_iff_compare {a b : Float} :
    a ≤ b ↔ ∃ o, a.toModel.unpack.compare b.toModel.unpack = some o ∧ o ≠ .gt := by
  show decide (UnpackedFloat.le _ _ = true) = true ↔ _
  rw [decide_eq_true_iff, UnpackedFloat.le]
  generalize UnpackedFloat.compare _ _ = o
  rcases o with _ | _ | _ | _ <;> simp [Ordering.isLE]

theorem not_isNaN_of_compare {u v : UnpackedFloat} {o : Ordering} (h : u.compare v = some o) :
    u.isNaN = false ∧ v.isNaN = false := by
  rcases u with s | _ | s | ⟨s, m, e, hm⟩ <;> rcases v with t | _ | t | ⟨t, n, d, hn⟩ <;>
    first
    | exact ⟨rfl, rfl⟩
    | cases h

theorem not_isNaN_of_lt {a b : Float} (h : a < b) : a.isNaN = false ∧ b.isNaN = false :=
  not_isNaN_of_compare (lt_iff_compare.1 h)

theorem not_isNaN_of_le {a b : Float} (h : a ≤ b) : a.isNaN = false ∧ b.isNaN = false :=
  let ⟨_, h, _⟩ := le_iff_compare.1 h
  not_isNaN_of_compare h

theorem compare_ordinal {a b : Float} (ha : a.isNaN = false) (hb : b.isNaN = false) :
    a.toModel.unpack.compare b.toModel.unpack = some (compare (ordinal a) (ordinal b)) :=
  compare_eq_ordinal (canonical_unpack _) (canonical_unpack _) ha hb

theorem lt_iff_ordinal {a b : Float} (ha : a.isNaN = false) (hb : b.isNaN = false) :
    a < b ↔ ordinal a < ordinal b := by
  rw [lt_iff_compare, compare_ordinal ha hb, Option.some.injEq]
  exact Int.compare_eq_lt

theorem le_iff_ordinal {a b : Float} (ha : a.isNaN = false) (hb : b.isNaN = false) :
    a ≤ b ↔ ordinal a ≤ ordinal b := by
  rw [le_iff_compare, compare_ordinal ha hb]
  simp [Int.compare_ne_gt]

theorem ordinal_lt_of_lt {a b : Float} (h : a < b) : ordinal a < ordinal b :=
  (lt_iff_ordinal (not_isNaN_of_lt h).1 (not_isNaN_of_lt h).2).1 h

theorem le_of_lt {a b : Float} (h : a < b) : a ≤ b :=
  have ⟨ha, hb⟩ := not_isNaN_of_lt h
  (le_iff_ordinal ha hb).2 (Int.le_of_lt (ordinal_lt_of_lt h))

theorem le_of_not_lt {a b : Float} (ha : a.isNaN = false) (hb : b.isNaN = false)
    (h : ¬ a < b) : b ≤ a :=
  (le_iff_ordinal hb ha).2 (Int.not_lt.1 (mt (lt_iff_ordinal ha hb).2 h))

/-! ## Finite floats -/

theorem isFinite_iff_ordinal {x : Float} :
    x.isFinite = true ↔
      x.isNaN = false ∧ -0x7ff0000000000000 < ordinal x ∧ ordinal x < 0x7ff0000000000000 := by
  have hc : Canonical x.toModel.unpack := canonical_unpack _
  show UnpackedFloat.isFinite _ = true ↔ UnpackedFloat.isNaN _ = false ∧ _
  rw [ordinal]
  generalize x.toModel.unpack = u at hc
  rcases u with s | _ | s | ⟨s, m, e, hm⟩
  · refine ⟨fun h => Bool.noConfusion h, fun h => ?_⟩
    cases s
    · exact absurd h.2.1 (Int.lt_irrefl _)
    · exact absurd h.2.2 (Int.lt_irrefl _)
  · exact ⟨fun h => Bool.noConfusion h, fun h => Bool.noConfusion h.1⟩
  · have hb : -0x7ff0000000000000 < (0 : Int) ∧ (0 : Int) < 0x7ff0000000000000 := by decide
    exact ⟨fun _ => ⟨rfl, hb⟩, fun _ => rfl⟩
  · have hb : -0x7ff0000000000000 < ordinalOf (.finite s m e hm) ∧
        ordinalOf (.finite s m e hm) < 0x7ff0000000000000 := by
      dsimp only [Canonical] at hc
      cases s <;> dsimp only [ordinalOf, Sign.apply] <;> omega
    exact ⟨fun _ => ⟨rfl, hb⟩, fun _ => rfl⟩

theorem not_isNaN_of_isFinite {x : Float} (h : x.isFinite = true) : x.isNaN = false :=
  (isFinite_iff_ordinal.1 h).1

theorem le_refl {x : Float} (h : x.isFinite = true) : x ≤ x :=
  (le_iff_ordinal (not_isNaN_of_isFinite h) (not_isNaN_of_isFinite h)).2 (Int.le_refl _)

theorem isFinite_of_le_of_le {a x b : Float} (ha : a.isFinite = true) (hb : b.isFinite = true)
    (hax : a ≤ x) (hxb : x ≤ b) : x.isFinite = true := by
  have ⟨na, nx⟩ := not_isNaN_of_le hax
  have nb := (not_isNaN_of_le hxb).2
  rw [le_iff_ordinal na nx] at hax
  rw [le_iff_ordinal nx nb] at hxb
  rw [isFinite_iff_ordinal] at *
  exact ⟨nx, by omega, by omega⟩

end ZeroSearch.Binary64
