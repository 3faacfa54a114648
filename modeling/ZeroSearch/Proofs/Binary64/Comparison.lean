import Mathlib
import ZeroSearch.Binary64.Order

/-!
# Comparisons

Comparisons of floats read off the ordinals. NaN has the ordinal of zero and compares with nothing,
so a comparison that holds excludes it; only the tests that fail for NaN have to leave it out.
-/

namespace ZeroSearch.Binary64

open Float.Model

variable {a b c : Float}

theorem ordinal_eq_zero_of_isNaN (h : a.isNaN = true) : ordinal a = 0 := by
  have hu : a.toModel.unpack.isNaN = true := h
  unfold ordinal
  generalize a.toModel.unpack = u at hu ⊢
  rcases u with s | _ | s | ⟨s, m, e, hm⟩
  · exact Bool.noConfusion hu
  · rfl
  · rfl
  · exact Bool.noConfusion hu

theorem isFinite_eq_of_ordinal_eq (ha : a.isNaN = false) (hb : b.isNaN = false)
    (h : ordinal a = ordinal b) : a.isFinite = b.isFinite := by
  rw [Bool.eq_iff_iff, isFinite_iff_ordinal, isFinite_iff_ordinal, ha, hb, h]

theorem isInf_eq {x : Float} (h : x.isNaN = false) : x.isInf = !x.isFinite := by
  have hu : x.toModel.unpack.isNaN = false := h
  show x.toModel.unpack.isInf = !x.toModel.unpack.isFinite
  generalize x.toModel.unpack = u at hu
  rcases u with s | _ | s | ⟨s, m, e, hm⟩
  · rfl
  · cases hu
  · rfl
  · rfl

/-! ## Equality -/

theorem beq_iff_compare : (a == b) = true ↔ a.toModel.unpack.compare b.toModel.unpack = some .eq := by
  show UnpackedFloat.beq _ _ = true ↔ _
  rw [UnpackedFloat.beq, beq_iff_eq]

theorem beq_iff_ordinal (ha : a.isNaN = false) (hb : b.isNaN = false) :
    (a == b) = true ↔ ordinal a = ordinal b := by
  rw [beq_iff_compare, compare_ordinal ha hb, Option.some.injEq]
  exact Int.compare_eq_eq

theorem ordinal_eq_of_beq (h : (a == b) = true) : ordinal a = ordinal b := by
  have ⟨ha, hb⟩ := not_isNaN_of_compare (beq_iff_compare.1 h)
  exact (beq_iff_ordinal ha hb).1 h

theorem beq_self (h : a.isNaN = false) : (a == a) = true := (beq_iff_ordinal h h).2 rfl

/-! ## Order -/

theorem ordinal_le_of_le (h : a ≤ b) : ordinal a ≤ ordinal b :=
  (le_iff_ordinal (not_isNaN_of_le h).1 (not_isNaN_of_le h).2).1 h

theorem le_self (h : a.isNaN = false) : a ≤ a := (le_iff_ordinal h h).2 (Int.le_refl _)

theorem beq_iff_le_and_le : (a == b) = true ↔ a ≤ b ∧ b ≤ a := by
  constructor
  · intro h
    have ⟨ha, hb⟩ := not_isNaN_of_compare (beq_iff_compare.1 h)
    rw [le_iff_ordinal ha hb, le_iff_ordinal hb ha, ordinal_eq_of_beq h]
    simp
  · rintro ⟨hab, hba⟩
    have h₁ := ordinal_le_of_le hab
    have h₂ := ordinal_le_of_le hba
    rw [beq_iff_ordinal (not_isNaN_of_le hab).1 (not_isNaN_of_le hab).2]
    omega

theorem lt_of_not_le (ha : a.isNaN = false) (hb : b.isNaN = false) (h : ¬ a ≤ b) : b < a :=
  (lt_iff_ordinal hb ha).2 (by rw [le_iff_ordinal ha hb] at h; omega)

protected theorem le_trans (hab : a ≤ b) (hbc : b ≤ c) : a ≤ c :=
  (le_iff_ordinal (not_isNaN_of_le hab).1 (not_isNaN_of_le hbc).2).2
    (Int.le_trans (ordinal_le_of_le hab) (ordinal_le_of_le hbc))

protected theorem lt_of_lt_of_le (hab : a < b) (hbc : b ≤ c) : a < c :=
  (lt_iff_ordinal (not_isNaN_of_lt hab).1 (not_isNaN_of_le hbc).2).2
    (Int.lt_of_lt_of_le (ordinal_lt_of_lt hab) (ordinal_le_of_le hbc))

protected theorem lt_of_le_of_lt (hab : a ≤ b) (hbc : b < c) : a < c :=
  (lt_iff_ordinal (not_isNaN_of_le hab).1 (not_isNaN_of_lt hbc).2).2
    (Int.lt_of_le_of_lt (ordinal_le_of_le hab) (ordinal_lt_of_lt hbc))

protected theorem lt_trans (hab : a < b) (hbc : b < c) : a < c :=
  Binary64.lt_of_lt_of_le hab (le_of_lt hbc)

theorem not_beq_of_lt (h : a < b) : (a == b) = false := by
  refine Bool.eq_false_iff.2 fun heq => ?_
  have h₁ := ordinal_lt_of_lt h
  have h₂ := ordinal_eq_of_beq heq
  omega

protected theorem not_le_of_lt (h : a < b) : ¬ b ≤ a := by
  intro hle
  have h₁ := ordinal_lt_of_lt h
  have h₂ := ordinal_le_of_le hle
  omega

instance instIsTransLt : IsTrans Float (· < ·) := ⟨fun _ _ _ => Binary64.lt_trans⟩

end ZeroSearch.Binary64
