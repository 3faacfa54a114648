import Mathlib
import ZeroSearch.Binary64.Order

/-!
# Packing

Every operation on floats unpacks its operands and packs its result. `unpack_pack` says what comes
out of a packed result: the same form again, if it is `Normalized` and its exponent in range, and
infinity beyond that. `pack_unpack` is the other direction, so a float is determined by its unpacked
form (`unpack_injective`), and apart from the zeros by its ordinal (`eq_of_ordinal_eq`).
-/

namespace ZeroSearch.Binary64

open Float.Model Float.Model.UnpackedFloat

/-! ## Fields -/

theorem ofBitVec_toBitVec (s : Sign) : Sign.ofBitVec s.toBitVec = s := by
  cases s <;> rfl

theorem toBitVec_ofBitVec (b : BitVec 1) : (Sign.ofBitVec b).toBitVec = b := by
  revert b
  decide

theorem eq_zero_iff {w : Nat} (b : BitVec w) : b = 0#w ↔ b.toNat = 0 := by
  rw [← BitVec.toNat_inj]
  simp

theorem unpackSign_packComponents (s : Sign) (x : BitVec 11) (m : BitVec 52) :
    unpackSign (packComponents .binary64 s x m) = s.toBitVec := by
  apply BitVec.eq_of_getLsbD_eq
  intro i hi
  obtain rfl : i = 0 := by omega
  rw [unpackSign, BitVec.getLsbD_cast, BitVec.getLsbD_extractLsb, packComponents,
    BitVec.getLsbD_append, BitVec.getLsbD_append]
  rfl

theorem packComponents_fields (b : BitVec Format.binary64.numBits) :
    packComponents .binary64 (.ofBitVec (unpackSign b)) (unpackExponent b) (unpackMantissa b) =
      b := by
  apply BitVec.eq_of_getLsbD_eq
  intro i hi
  have hi' : i < 64 := hi
  rw [packComponents, toBitVec_ofBitVec, BitVec.getLsbD_append, BitVec.getLsbD_append, unpackSign,
    unpackExponent, unpackMantissa]
  simp only [BitVec.getLsbD_cast, BitVec.getLsbD_extractLsb]
  grind

theorem toNat_biased (e : Int) :
    (e + (Format.binary64.exponentBias : Nat) +
      (Format.binary64.mantissaBitsWithoutImplicit : Nat)).toNat = (e + 1075).toNat := by
  have hbias : ((Format.binary64.exponentBias : Nat) : Int) = 1023 := rfl
  have hwidth : ((Format.binary64.mantissaBitsWithoutImplicit : Nat) : Int) = 52 := rfl
  rw [hbias, hwidth]
  omega

theorem toNat_append_one (m : BitVec 52) : (1#1 ++ m).toNat = 0x10000000000000 + m.toNat := by
  rw [BitVec.toNat_append, ← Nat.shiftLeft_add_eq_or_of_lt m.isLt]
  rfl

theorem finite_congr {s t : Sign} {m n : Nat} {d e : Int} {hm : 0 < m} {hn : 0 < n} (hs : s = t)
    (hmn : m = n) (hde : d = e) : UnpackedFloat.finite s m d hm = .finite t n e hn := by
  subst hs hmn hde
  rfl

/-- Unpacking once the fields have been read. -/
def assemble (sign : Sign) (x : BitVec 11) (m : BitVec 52) : UnpackedFloat :=
  if x.toNat = 2047 then
    if m.toNat = 0 then .infinity sign else .notANumber
  else if x.toNat = 0 then
    if h : m.toNat = 0 then .zero sign else .finite sign m.toNat (-1074) (Nat.pos_of_ne_zero h)
  else .finite sign (0x10000000000000 + m.toNat) (x.toNat - 1075) (by omega)

theorem unpack_eq_assemble (b : BitVec Format.binary64.numBits) :
    unpack .binary64 b =
      assemble (.ofBitVec (unpackSign b)) (unpackExponent b) (unpackMantissa b) := by
  have hbias : ((Format.binary64.exponentBias : Nat) : Int) = 1023 := rfl
  have hwidth : ((Format.binary64.mantissaBitsWithoutImplicit : Nat) : Int) = 52 := rfl
  have htop : unpackExponent b = -1#_ ↔ (unpackExponent b).toNat = 2047 := by
    rw [← BitVec.toNat_inj]
    rfl
  delta UnpackedFloat.unpack assemble
  dsimp only
  by_cases h : unpackExponent b = -1#_
  · rw [if_pos h, if_pos (htop.1 h)]
    by_cases hm : unpackMantissa b = 0#_
    · rw [if_pos hm, if_pos ((eq_zero_iff _).1 hm)]
    · rw [if_neg hm, if_neg (mt (eq_zero_iff _).2 hm)]
  rw [if_neg h, if_neg (mt htop.2 h)]
  by_cases hx : unpackExponent b = 0#_
  · have hx' := (eq_zero_iff _).1 hx
    rw [if_pos hx, if_pos hx']
    by_cases hm : unpackMantissa b = 0#_
    · rw [dif_pos hm, dif_pos ((eq_zero_iff _).1 hm)]
    · rw [dif_neg hm, dif_neg (mt (eq_zero_iff _).2 hm)]
      refine finite_congr rfl rfl ?_
      rw [hbias, hwidth, hx']
      rfl
  · rw [if_neg hx, if_neg (mt (eq_zero_iff _).2 hx)]
    refine finite_congr rfl (toNat_append_one _) ?_
    rw [hbias, hwidth]
    rfl

theorem unpack_packComponents (s : Sign) (x : BitVec 11) (m : BitVec 52) :
    unpack .binary64 (packComponents .binary64 s x m) = assemble s x m := by
  rw [unpack_eq_assemble, unpackSign_packComponents, unpackExponent_packComponents,
    unpackMantissa_packComponents, ofBitVec_toBitVec]

theorem log2_normal {m : Nat} (hlo : 0x10000000000000 ≤ m) (hhi : m < 0x20000000000000) :
    m.log2 = 52 :=
  (Nat.log2_eq_iff (by omega)).2 ⟨by omega, by omega⟩

theorem log2_subnormal {m : Nat} (hm : 0 < m) (h : m < 0x10000000000000) : m.log2 < 52 :=
  (Nat.log2_lt (by omega)).2 (by omega)

/-! ## Unpacking what was packed -/

/-- What rounding leaves: as `Canonical`, with no limit on the exponent from above. -/
def Normalized : UnpackedFloat → Prop
  | .finite _ m e _ => m < 0x20000000000000 ∧ -1074 ≤ e ∧ (-1074 < e → 0x10000000000000 ≤ m)
  | _ => True

theorem Normalized.of_canonical {u : UnpackedFloat} (h : Canonical u) : Normalized u := by
  rcases u with s | _ | s | ⟨s, m, e, hm⟩
  · trivial
  · trivial
  · trivial
  · exact ⟨h.1, h.2.1, h.2.2.2⟩

/-- An exponent out of range gives infinity. -/
def saturate : UnpackedFloat → UnpackedFloat
  | .finite s m e hm => if e ≤ 971 then .finite s m e hm else .infinity s
  | u => u

theorem saturate_of_canonical {u : UnpackedFloat} (h : Canonical u) : saturate u = u := by
  rcases u with s | _ | s | ⟨s, m, e, hm⟩
  · rfl
  · rfl
  · rfl
  · exact if_pos h.2.2.1

theorem assemble_normal (s : Sign) {x : BitVec 11} {v : BitVec 52} {m : Nat} {e : Int} (hm : 0 < m)
    (hx : (x.toNat : Int) = e + 1075) (hv : 0x10000000000000 + v.toNat = m) (he : -1074 ≤ e)
    (he' : e ≤ 971) : assemble s x v = .finite s m e hm := by
  rw [assemble, if_neg (by omega), if_neg (by omega)]
  exact finite_congr rfl hv (by omega)

theorem assemble_subnormal (s : Sign) {x : BitVec 11} {v : BitVec 52} {m : Nat} (hm : 0 < m)
    (hx : x.toNat = 0) (hv : v.toNat = m) : assemble s x v = .finite s m (-1074) hm := by
  rw [assemble, if_neg (by omega), if_pos hx, dif_neg (by omega)]
  exact finite_congr rfl hv rfl

theorem unpack_pack {u : UnpackedFloat} (h : Normalized u) :
    unpack .binary64 (pack .binary64 u) = saturate u := by
  rcases u with s | _ | s | ⟨s, m, e, hm⟩
  · exact (unpack_packComponents s _ _).trans rfl
  · exact (unpack_packComponents .positive _ _).trans rfl
  · exact (unpack_packComponents s _ _).trans rfl
  · obtain ⟨hlt, he₀, hlead⟩ := h
    delta UnpackedFloat.pack saturate
    dsimp only
    rw [toNat_biased]
    by_cases he : e ≤ 971
    · rw [if_neg (by show ¬ 2048 ≤ _; omega), if_pos he]
      by_cases hnormal : 0x10000000000000 ≤ m
      · rw [if_pos (by rw [log2_normal hnormal hlt]; rfl), unpack_packComponents]
        refine assemble_normal s hm ?_ ?_ he₀ he
        · rw [BitVec.toNat_ofNat]
          omega
        · rw [BitVec.toNat_ofNat]
          omega
      · have hlog := log2_subnormal hm (by omega)
        rw [if_neg (by show ¬ m.log2 + 1 = 53; omega), unpack_packComponents]
        obtain rfl : e = -1074 := by omega
        refine assemble_subnormal s hm rfl ?_
        rw [BitVec.toNat_ofNat]
        omega
    · rw [if_pos (by show 2048 ≤ _; omega), if_neg he]
      exact (unpack_packComponents s _ _).trans rfl

theorem unpack_ofModel_pack {u : UnpackedFloat} (h : Normalized u) :
    (Float.ofModel (Float.Model.pack u)).toModel.unpack = saturate u :=
  unpack_pack h

/-! ## Packing what was unpacked -/

theorem pack_assemble (s : Sign) (x : BitVec 11) (m : BitVec 52)
    (h : x.toNat = 2047 → m.toNat = 0) :
    pack .binary64 (assemble s x m) = packComponents .binary64 s x m := by
  have hx := x.isLt
  have hm := m.isLt
  unfold assemble
  by_cases htop : x.toNat = 2047
  · rw [if_pos htop, if_pos (h htop)]
    obtain rfl : x = -1#11 := BitVec.eq_of_toNat_eq htop
    obtain rfl : m = 0#52 := BitVec.eq_of_toNat_eq (h htop)
    rfl
  rw [if_neg htop]
  by_cases hleast : x.toNat = 0
  · rw [if_pos hleast]
    obtain rfl : x = 0#11 := BitVec.eq_of_toNat_eq hleast
    by_cases hzero : m.toNat = 0
    · rw [dif_pos hzero]
      obtain rfl : m = 0#52 := BitVec.eq_of_toNat_eq hzero
      rfl
    · rw [dif_neg hzero]
      have hlog := log2_subnormal (Nat.pos_of_ne_zero hzero) hm
      delta UnpackedFloat.pack
      dsimp only
      rw [if_neg (by decide), if_neg (by show ¬ m.toNat.log2 + 1 = 53; omega), BitVec.ofNat_toNat]
      rfl
  · rw [if_neg hleast]
    delta UnpackedFloat.pack
    dsimp only
    rw [toNat_biased, if_neg (by show ¬ 2048 ≤ _; omega),
      if_pos (by rw [log2_normal (by omega) (by omega)]; rfl)]
    congr 1
    · apply BitVec.eq_of_toNat_eq
      rw [BitVec.toNat_ofNat]
      omega
    · apply BitVec.eq_of_toNat_eq
      rw [BitVec.toNat_ofNat]
      omega

theorem pack_unpack {b : BitVec Format.binary64.numBits} (hv : Format.binary64.Valid b) :
    pack .binary64 (unpack .binary64 b) = b := by
  by_cases hnan : (unpackExponent b).toNat = 2047 ∧ (unpackMantissa b).toNat ≠ 0
  · have htop : unpackExponent b = -1#_ := BitVec.eq_of_toNat_eq hnan.1
    have hmant : unpackMantissa b ≠ 0#_ := mt (eq_zero_iff _).1 hnan.2
    rw [unpack_eq_assemble, assemble, if_pos hnan.1, if_neg hnan.2]
    exact (hv.eq_packedNaN htop hmant).symm
  · rw [unpack_eq_assemble, pack_assemble _ _ _ fun h => not_not.1 fun hm => hnan ⟨h, hm⟩]
    exact packComponents_fields b

theorem unpack_injective {x y : Float} (h : x.toModel.unpack = y.toModel.unpack) : x = y := by
  obtain ⟨⟨b, hb⟩⟩ := x
  obtain ⟨⟨c, hc⟩⟩ := y
  have hbits : b = c := by
    have := congrArg (pack .binary64) h
    rwa [Float.Model.unpack, Float.Model.unpack, pack_unpack hb, pack_unpack hc,
      UInt64.toBitVec_inj] at this
  subst hbits
  rfl

/-! ## Ordinals of packed floats -/

/-- The ordinals of floats end at infinity. -/
def clamp (n : Int) : Int := max (-0x7ff0000000000000) (min n 0x7ff0000000000000)

theorem ordinalOf_saturate {u : UnpackedFloat} (h : Normalized u) :
    ordinalOf (saturate u) = clamp (ordinalOf u) := by
  rcases u with s | _ | s | ⟨s, m, e, hm⟩
  · cases s <;> rfl
  · rfl
  · rfl
  · obtain ⟨hlt, he, hlead⟩ := h
    unfold saturate clamp
    dsimp only
    by_cases he' : e ≤ 971
    · rw [if_pos he']
      cases s <;> dsimp only [ordinalOf, Sign.apply] <;> omega
    · rw [if_neg he']
      cases s <;> dsimp only [ordinalOf, Sign.apply] <;> omega

theorem ordinal_ofModel_pack {u : UnpackedFloat} (h : Normalized u) :
    ordinal (Float.ofModel (Float.Model.pack u)) = clamp (ordinalOf u) := by
  rw [ordinal, unpack_ofModel_pack h, ordinalOf_saturate h]

theorem isNaN_saturate (u : UnpackedFloat) : (saturate u).isNaN = u.isNaN := by
  rcases u with s | _ | s | ⟨s, m, e, hm⟩
  · rfl
  · rfl
  · rfl
  · unfold saturate
    dsimp only
    by_cases he : e ≤ 971
    · rw [if_pos he]
    · rw [if_neg he]
      rfl

theorem isNaN_ofModel_pack {u : UnpackedFloat} (h : Normalized u) :
    (Float.ofModel (Float.Model.pack u)).isNaN = u.isNaN := by
  show UnpackedFloat.isNaN _ = _
  rw [unpack_ofModel_pack h, isNaN_saturate]

theorem eq_of_ordinalOf_eq {u v : UnpackedFloat} (hu : Canonical u) (hv : Canonical v)
    (h₀ : ordinalOf u ≠ 0) (h : ordinalOf u = ordinalOf v) : u = v := by
  rcases u with s | _ | s | ⟨s, m, e, hm⟩
  case notANumber => exact absurd rfl h₀
  case zero => exact absurd rfl h₀
  all_goals
    rcases v with t | _ | t | ⟨t, n, d, hn⟩
    case notANumber => exact absurd h h₀
    case zero => exact absurd h h₀
  all_goals
    dsimp only [Canonical] at hu hv
    cases s <;> cases t <;> dsimp only [ordinalOf, Sign.apply] at h
  all_goals first
    | rfl
    | omega
    | exact finite_congr rfl (by omega) (by omega)

/-- Only the zeros share their ordinal. -/
theorem eq_of_ordinal_eq {x y : Float} (h₀ : ordinal x ≠ 0) (h : ordinal x = ordinal y) : x = y :=
  unpack_injective (eq_of_ordinalOf_eq (canonical_unpack _) (canonical_unpack _) h₀ h)

theorem clamp_ordinal (x : Float) : clamp (ordinal x) = ordinal x := by
  have h := canonical_unpack x.toModel.toBits.toBitVec
  have := ordinalOf_saturate (Normalized.of_canonical h)
  rw [saturate_of_canonical h] at this
  exact this.symm

end ZeroSearch.Binary64
