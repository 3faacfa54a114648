import Mathlib
import ZeroSearch.Proofs.Binary64.Arithmetic

/-!
# Negation of binary64 numbers

Rounding to even treats both signs alike, so negation goes through products and quotients bit by
bit. It goes through sums but for one case: terms that cancel give the positive zero on both sides
(`neg_add_neg`, `neg_sub_neg`).
-/

namespace ZeroSearch.Binary64

open Float.Model Float.Model.UnpackedFloat

/-! ## Packing -/

theorem assemble_neg (s : Sign) (x : BitVec 11) (m : BitVec 52) :
    assemble (-s) x m = (assemble s x m).neg := by
  unfold assemble
  by_cases htop : x.toNat = 2047
  · rw [if_pos htop, if_pos htop]
    by_cases hm : m.toNat = 0
    · rw [if_pos hm, if_pos hm]
      rfl
    · rw [if_neg hm, if_neg hm]
      rfl
  rw [if_neg htop, if_neg htop]
  by_cases hleast : x.toNat = 0
  · rw [if_pos hleast, if_pos hleast]
    by_cases hm : m.toNat = 0
    · rw [dif_pos hm, dif_pos hm]
      rfl
    · rw [dif_neg hm, dif_neg hm]
      rfl
  · rw [if_neg hleast, if_neg hleast]
    rfl

theorem unpack_pack_neg (u : UnpackedFloat) :
    unpack .binary64 (pack .binary64 u.neg) = (unpack .binary64 (pack .binary64 u)).neg := by
  have hcomponents (s : Sign) (x : BitVec 11) (m : BitVec 52) :
      unpack .binary64 (packComponents .binary64 (-s) x m) =
        (unpack .binary64 (packComponents .binary64 s x m)).neg := by
    rw [unpack_packComponents, unpack_packComponents, assemble_neg]
  rcases u with s | _ | s | ⟨s, m, e, hm⟩
  · exact hcomponents s _ _
  · have hnan : Normalized .notANumber := trivial
    rw [show UnpackedFloat.neg .notANumber = .notANumber from rfl, unpack_pack hnan]
    rfl
  · exact hcomponents s _ _
  · show unpack .binary64 (pack .binary64 (.finite (-s) m e hm)) = _
    delta UnpackedFloat.pack
    dsimp only
    by_cases hlarge : 2 ^ Format.binary64.exponentBits ≤
        (e + Format.binary64.exponentBias + Format.binary64.mantissaBitsWithoutImplicit).toNat + 1
    · rw [if_pos hlarge, if_pos hlarge]
      exact hcomponents s _ _
    rw [if_neg hlarge, if_neg hlarge]
    by_cases hnormal : m.log2 + 1 = Format.binary64.mantissaBits
    · rw [if_pos hnormal, if_pos hnormal]
      exact hcomponents s _ _
    · rw [if_neg hnormal, if_neg hnormal]
      exact hcomponents s _ _

theorem unpack_neg (x : Float) : (-x).toModel.unpack = x.toModel.unpack.neg := by
  have hc := canonical_neg (canonical_float x)
  exact (unpack_ofModel_pack (.of_canonical hc)).trans (saturate_of_canonical hc)

theorem neg_ofModel_pack (u : UnpackedFloat) :
    -Float.ofModel (Float.Model.pack u) = Float.ofModel (Float.Model.pack u.neg) :=
  unpack_injective ((unpack_neg _).trans (unpack_pack_neg u).symm)

/-! ## Comparison -/

theorem isFinite_neg_float (x : Float) : (-x).isFinite = x.isFinite := by
  show (-x).toModel.unpack.isFinite = x.toModel.unpack.isFinite
  rw [unpack_neg, isFinite_neg]

theorem isNaN_neg (x : Float) : (-x).isNaN = x.isNaN := by
  show (-x).toModel.unpack.isNaN = x.toModel.unpack.isNaN
  rw [unpack_neg]
  rcases x.toModel.unpack with s | _ | s | ⟨s, m, e, hm⟩ <;> rfl

theorem ordinal_neg (x : Float) : ordinal (-x) = -ordinal x := by
  rw [ordinal, unpack_neg, ordinalOf_neg, ordinal]

theorem abs_neg (x : Float) : (-x).abs = x.abs := by
  show Float.ofModel (Float.Model.pack (-x).toModel.unpack.abs) =
    Float.ofModel (Float.Model.pack x.toModel.unpack.abs)
  rw [unpack_neg]
  rcases x.toModel.unpack with s | _ | s | ⟨s, m, e, hm⟩ <;> rfl

/-! ## Products and quotients -/

theorem roundWithAccuracy_neg (s : Sign) (m : Nat) (e : Int) (a : Accuracy) :
    roundWithAccuracy .binary64 (-s) m e a = (roundWithAccuracy .binary64 s m e a).neg := by
  delta roundWithAccuracy
  dsimp only
  generalize shiftToTargetExponent .binary64 m e a = first
  obtain ⟨em, d⟩ := first
  dsimp only
  generalize shiftToTargetExponent .binary64 em.roundedMantissa d .exact = second
  obtain ⟨em', d'⟩ := second
  dsimp only
  by_cases hm : em'.mantissa = 0
  · rw [dif_pos hm, dif_pos hm]
    rfl
  · rw [dif_neg hm, dif_neg hm]
    rfl

theorem round_neg (s : Sign) (m : Nat) (e : Int) :
    UnpackedFloat.round .binary64 (-s) m e = (UnpackedFloat.round .binary64 s m e).neg := by
  delta UnpackedFloat.round
  dsimp only
  exact roundWithAccuracy_neg s _ _ _

theorem neg_mul_sign (s t : Sign) : -s * t = -(s * t) := by cases s <;> cases t <;> rfl

theorem mul_neg_sign (s t : Sign) : s * -t = -(s * t) := by cases s <;> cases t <;> rfl

theorem neg_mul_unpacked (u v : UnpackedFloat) :
    u.neg.mul .binary64 v = (u.mul .binary64 v).neg := by
  rcases u with s | _ | s | ⟨s, m, e, hm⟩ <;> rcases v with t | _ | t | ⟨t, n, d, hn⟩ <;> try rfl
  case finite.finite =>
    show roundWithAccuracy .binary64 (-s * t) _ _ _ = _
    rw [neg_mul_sign]
    exact roundWithAccuracy_neg _ _ _ _
  all_goals cases s <;> cases t <;> rfl

theorem mul_neg_unpacked (u v : UnpackedFloat) :
    u.mul .binary64 v.neg = (u.mul .binary64 v).neg := by
  rcases u with s | _ | s | ⟨s, m, e, hm⟩ <;> rcases v with t | _ | t | ⟨t, n, d, hn⟩ <;> try rfl
  case finite.finite =>
    show roundWithAccuracy .binary64 (s * -t) _ _ _ = _
    rw [mul_neg_sign]
    exact roundWithAccuracy_neg _ _ _ _
  all_goals cases s <;> cases t <;> rfl

theorem neg_div_neg_unpacked (u v : UnpackedFloat) :
    u.neg.div .binary64 v.neg = u.div .binary64 v := by
  rcases u with s | _ | s | ⟨s, m, e, hm⟩ <;> rcases v with t | _ | t | ⟨t, n, d, hn⟩ <;> try rfl
  all_goals cases s <;> cases t <;> rfl

protected theorem neg_mul (x y : Float) : -x * y = -(x * y) := by
  show Float.ofModel (Float.Model.pack ((-x).toModel.unpack.mul .binary64 y.toModel.unpack)) = _
  rw [unpack_neg, neg_mul_unpacked]
  exact (neg_ofModel_pack _).symm

protected theorem mul_neg (x y : Float) : x * -y = -(x * y) := by
  show Float.ofModel (Float.Model.pack (x.toModel.unpack.mul .binary64 (-y).toModel.unpack)) = _
  rw [unpack_neg, mul_neg_unpacked]
  exact (neg_ofModel_pack _).symm

protected theorem neg_div_neg (x y : Float) : -x / -y = x / y := by
  show Float.ofModel (Float.Model.pack
    ((-x).toModel.unpack.div .binary64 (-y).toModel.unpack)) = _
  rw [unpack_neg, unpack_neg, neg_div_neg_unpacked]
  rfl

protected theorem neg_neg (x : Float) : - -x = x := by
  refine unpack_injective ?_
  rw [unpack_neg, unpack_neg]
  rcases x.toModel.unpack with s | _ | s | ⟨s, m, e, hm⟩
  all_goals first | rfl | (cases s <;> rfl)

protected theorem neg_mul_neg (x y : Float) : -x * -y = x * y := by
  rw [Binary64.neg_mul, Binary64.mul_neg, Binary64.neg_neg]

theorem mul_neg_mul_neg (c x y : Float) : c * -x * -y = c * x * y := by
  rw [Binary64.mul_neg c x, Binary64.neg_mul_neg]

/-! ## Sums -/

theorem normalize_neg {k : Int} (hk : k ≠ 0) (e : Int) (s : Sign) :
    UnpackedFloat.normalize .binary64 (-k) e s = (UnpackedFloat.normalize .binary64 k e s).neg := by
  delta UnpackedFloat.normalize
  obtain h | h := Int.lt_or_gt_of_ne hk
  · rw [compare_gt (show 0 < -k by omega), compare_lt h]
    exact round_neg .negative _ _
  · rw [compare_lt (show -k < 0 by omega), compare_gt h, Int.neg_neg]
    exact round_neg .positive _ _

/-- Terms that cancel, and zeros with two signs, give the positive zero. -/
theorem neg_add_neg_unpacked (u v : UnpackedFloat) :
    u.neg.add .binary64 v.neg = (u.add .binary64 v).neg ∨
      u.add .binary64 v = .zero .positive ∧ u.neg.add .binary64 v.neg = .zero .positive := by
  rcases u with s | _ | s | ⟨s, m, e, hm⟩ <;> rcases v with t | _ | t | ⟨t, n, d, hn⟩ <;>
    try exact .inl rfl
  case infinity.infinity => cases s <;> cases t <;> exact .inl rfl
  case zero.zero =>
    cases s <;> cases t
    · exact .inl rfl
    · exact .inr ⟨rfl, rfl⟩
    · exact .inr ⟨rfl, rfl⟩
    · exact .inl rfl
  case finite.finite =>
    let j := s.apply (decreaseExponent m e (min e d)).1
    let k := t.apply (decreaseExponent n d (min e d)).1
    have hadd : UnpackedFloat.add .binary64 (.finite s m e hm) (.finite t n d hn) =
        UnpackedFloat.normalize .binary64 (j + k) (min e d) .positive := rfl
    have hneg : UnpackedFloat.add .binary64 (.finite (-s) m e hm) (.finite (-t) n d hn) =
        UnpackedFloat.normalize .binary64 (-(j + k)) (min e d) .positive := by
      rw [Int.neg_add, ← apply_neg, ← apply_neg]
      rfl
    show UnpackedFloat.add .binary64 (.finite (-s) m e hm) (.finite (-t) n d hn) = _ ∨
      _ ∧ UnpackedFloat.add .binary64 (.finite (-s) m e hm) (.finite (-t) n d hn) = _
    rw [hadd, hneg]
    by_cases hk : j + k = 0
    · rw [hk]
      exact .inr ⟨rfl, rfl⟩
    · exact .inl (normalize_neg hk _ _)

theorem neg_add_neg (x y : Float) : -x + -y = -(x + y) ∨ x + y = 0.0 ∧ -x + -y = 0.0 := by
  show Float.ofModel (Float.Model.pack
      ((-x).toModel.unpack.add .binary64 (-y).toModel.unpack)) = _ ∨
    Float.ofModel (Float.Model.pack (x.toModel.unpack.add .binary64 y.toModel.unpack)) = _ ∧
    Float.ofModel (Float.Model.pack
      ((-x).toModel.unpack.add .binary64 (-y).toModel.unpack)) = _
  rw [unpack_neg, unpack_neg]
  obtain h | ⟨h, hneg⟩ := neg_add_neg_unpacked x.toModel.unpack y.toModel.unpack
  · left
    rw [h]
    exact (neg_ofModel_pack _).symm
  · right
    rw [h, hneg]
    exact ⟨rfl, rfl⟩

theorem sub_eq_add (x y : Float) : x - y = x + -y := by
  show Float.ofModel (Float.Model.pack (x.toModel.unpack.sub .binary64 y.toModel.unpack)) =
    Float.ofModel (Float.Model.pack (x.toModel.unpack.add .binary64 (-y).toModel.unpack))
  rw [unpack_neg, sub_eq_add_neg]

theorem neg_sub_neg (x y : Float) : -x - -y = -(x - y) ∨ x - y = 0.0 ∧ -x - -y = 0.0 := by
  rw [sub_eq_add, sub_eq_add]
  exact neg_add_neg x (-y)

/-! ## Values that are not finite -/

theorem isFinite_pack {u : UnpackedFloat} (h : u.isFinite = false) :
    (Float.ofModel (Float.Model.pack u)).isFinite = false := by
  show (Float.ofModel (Float.Model.pack u)).toModel.unpack.isFinite = false
  rcases u with s | _ | s | ⟨s, m, e, hm⟩
  · rw [unpack_ofModel_pack (u := .infinity s) trivial]
    rfl
  · rw [unpack_ofModel_pack (u := .notANumber) trivial]
    rfl
  · cases h
  · cases h

theorem isFinite_div_zero (x : Float) : (x / 0.0).isFinite = false := by
  have hzero : (0.0 : Float).toModel.unpack = .zero .positive := rfl
  show (Float.ofModel (Float.Model.pack
    (x.toModel.unpack.div .binary64 (0.0 : Float).toModel.unpack))).isFinite = false
  rw [hzero]
  refine isFinite_pack ?_
  rcases x.toModel.unpack with s | _ | s | ⟨s, m, e, hm⟩ <;> rfl

theorem isFinite_sub (x : Float) {y : Float} (hy : y.isFinite = false) :
    (x - y).isFinite = false := by
  refine isFinite_pack ?_
  have hv : y.toModel.unpack.isFinite = false := hy
  generalize x.toModel.unpack = u
  generalize y.toModel.unpack = v at hv
  rcases v with t | _ | t | ⟨t, n, d, hn⟩
  · rcases u with s | _ | s | ⟨s, m, e, hm⟩ <;> try rfl
    cases s <;> cases t <;> rfl
  · rcases u with s | _ | s | ⟨s, m, e, hm⟩ <;> rfl
  · cases hv
  · cases hv

end ZeroSearch.Binary64
