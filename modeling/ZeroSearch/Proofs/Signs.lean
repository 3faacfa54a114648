import Mathlib
import ZeroSearch.Proofs.Binary64.Comparison
import ZeroSearch.Sign

/-!
# Signs by ordinals

Comparisons with zero read off the ordinal. NaN has the ordinal of zero and no sign, so only the
test for zero has to leave it out. Among values that are finite and not zero, a value is opposite to
exactly one of two opposite ones.
-/

namespace ZeroSearch

open Binary64 Float.Model

variable {a b y : Float}

theorem neg_iff_ordinal : a < 0 ↔ ordinal a < 0 := by
  cases h : a.isNaN with
  | false => exact lt_iff_ordinal h rfl
  | true =>
    rw [ordinal_eq_zero_of_isNaN h]
    refine iff_of_false (fun hlt => ?_) (Int.lt_irrefl 0)
    rw [(not_isNaN_of_lt hlt).1] at h
    cases h

theorem pos_iff_ordinal : 0 < a ↔ 0 < ordinal a := by
  cases h : a.isNaN with
  | false => exact lt_iff_ordinal rfl h
  | true =>
    rw [ordinal_eq_zero_of_isNaN h]
    refine iff_of_false (fun hlt => ?_) (Int.lt_irrefl 0)
    rw [(not_isNaN_of_lt hlt).2] at h
    cases h

theorem beq_zero_iff_ordinal (ha : a.isNaN = false) : (a == 0) = true ↔ ordinal a = 0 :=
  beq_iff_ordinal ha rfl

theorem isFinite_of_beq_zero (h : (a == 0) = true) : a.isFinite = true := by
  have hord : ordinal a = 0 := ordinal_eq_of_beq h
  exact isFinite_iff_ordinal.2
    ⟨(not_isNaN_of_compare (beq_iff_compare.1 h)).1, by omega, by omega⟩

theorem ordinal_ne_zero (ha : a.isFinite = true) (h : (a == 0) = false) : ordinal a ≠ 0 := by
  rw [Ne, ← beq_zero_iff_ordinal (not_isNaN_of_isFinite ha), h]
  exact Bool.false_ne_true

theorem oppositeSigns_iff_ordinal :
    oppositeSigns a b = true ↔ ordinal a < 0 ∧ 0 < ordinal b ∨ 0 < ordinal a ∧ ordinal b < 0 := by
  rw [oppositeSigns_eq_true, neg_iff_ordinal, neg_iff_ordinal, pos_iff_ordinal, pos_iff_ordinal]

theorem not_isNaN_of_oppositeSigns (h : oppositeSigns a b = true) :
    a.isNaN = false ∧ b.isNaN = false := by
  obtain ⟨ha, hb⟩ | ⟨ha, hb⟩ := oppositeSigns_eq_true.1 h
  · exact ⟨(not_isNaN_of_lt ha).1, (not_isNaN_of_lt hb).2⟩
  · exact ⟨(not_isNaN_of_lt ha).2, (not_isNaN_of_lt hb).1⟩

def SameSign (a b : Float) : Prop := (a < 0 ↔ b < 0) ∧ (0 < a ↔ 0 < b)

theorem SameSign.refl (a : Float) : SameSign a a := ⟨Iff.rfl, Iff.rfl⟩

theorem SameSign.trans {a b c : Float} (hab : SameSign a b) (hbc : SameSign b c) : SameSign a c :=
  ⟨hab.1.trans hbc.1, hab.2.trans hbc.2⟩

theorem sameSign_of_oppositeSigns {a b c : Float} (hac : oppositeSigns a c = true)
    (hbc : oppositeSigns b c = true) : SameSign a b := by
  unfold SameSign
  rw [oppositeSigns_iff_ordinal] at hac hbc
  rw [neg_iff_ordinal, neg_iff_ordinal, pos_iff_ordinal, pos_iff_ordinal]
  omega

/-- A value that is finite and not zero is on one side or the other. -/
theorem oppositeSigns_of_not (hab : oppositeSigns a b = true) (hy : y.isFinite = true)
    (hy₀ : (y == 0) = false) (h : ¬ oppositeSigns a y = true) : oppositeSigns y b = true := by
  have := ordinal_ne_zero hy hy₀
  rw [oppositeSigns_iff_ordinal] at *
  omega

end ZeroSearch
