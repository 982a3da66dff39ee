import Formula.Binary64.Whole
import Mathlib

/-!
# The parts of a double

A double other than a zero, an infinity and NaN is `± mantissa · 2 ^ exponent`. Its
parts are canonical, and canonical parts survive being packed into the 64 bits.
-/

namespace Formula

namespace Binary64

open Float.Model (UnpackedFloat Format totalExponent)
open Float.Model.UnpackedFloat

/-- The mantissas and exponents of the format. A mantissa has 53 bits, the first of them set
unless the exponent is the least one. -/
structure Canonical (mantissa : Nat) (exponent : Int) : Prop where
  mantissa_lt : mantissa < 2 ^ 53
  least_le : -1074 ≤ exponent
  le_greatest : exponent ≤ 971
  normal : 2 ^ 52 ≤ mantissa ∨ exponent = -1074

/-! ## The fields of the 64 bits -/

theorem exponentBias_binary64 : Format.binary64.exponentBias = 1023 := rfl

theorem toNat_one_append (fraction : BitVec 52) :
    (1#1 ++ fraction).toNat = 2 ^ 52 + fraction.toNat := by
  rw [BitVec.toNat_append, ← Nat.shiftLeft_add_eq_or_of_lt fraction.isLt]
  rfl

/-- The parts of a double are canonical. -/
theorem canonical_of_unpack {bits : BitVec Format.binary64.numBits} {sign : Sign}
    {mantissa : Nat} {exponent : Int} {hpos : 0 < mantissa}
    (h : UnpackedFloat.unpack .binary64 bits = .finite sign mantissa exponent hpos) :
    Canonical mantissa exponent := by
  have hfraction : (unpackMantissa bits).toNat < 2 ^ 52 := (unpackMantissa bits).isLt
  have hbiased : (unpackExponent bits).toNat < 2 ^ 11 := (unpackExponent bits).isLt
  unfold UnpackedFloat.unpack at h
  simp only [exponentBias_binary64] at h
  split at h
  · split at h <;> cases h
  rename_i hspecial
  have hlt : (unpackExponent bits).toNat ≠ 2 ^ 11 - 1 := fun heq =>
    hspecial (BitVec.eq_of_toNat_eq heq)
  split at h
  · rename_i hzero
    split at h
    · cases h
    -- below the normal range: the exponent field is zero
    cases h
    rw [hzero]
    exact ⟨by omega, by decide, by decide, .inr (by decide)⟩
  · rename_i hzero
    have hne : (unpackExponent bits).toNat ≠ 0 := fun heq =>
      hzero (BitVec.eq_of_toNat_eq heq)
    cases h
    rw [toNat_one_append]
    exact ⟨by omega, by push_cast; omega, by push_cast; omega, .inl (by omega)⟩

theorem log2_eq_of_normal {mantissa : Nat} (hlow : 2 ^ 52 ≤ mantissa)
    (hhigh : mantissa < 2 ^ 53) : mantissa.log2 = 52 :=
  (Nat.log2_eq_iff (by omega)).2 ⟨hlow, hhigh⟩

theorem log2_lt_of_subnormal {mantissa : Nat} (h : mantissa < 2 ^ 52) : mantissa.log2 < 52 := by
  rcases Nat.eq_zero_or_pos mantissa with rfl | hpos
  · decide
  · exact (Nat.log2_lt hpos.ne').2 h

theorem finite_congr {sign : Sign} {mantissa mantissa' : Nat} {exponent exponent' : Int}
    {hpos : 0 < mantissa} {hpos' : 0 < mantissa'} (hmantissa : mantissa = mantissa')
    (hexponent : exponent = exponent') :
    UnpackedFloat.finite sign mantissa exponent hpos =
      .finite sign mantissa' exponent' hpos' := by
  subst hmantissa hexponent
  rfl

theorem unpack_packComponents_normal {sign : Sign} {exponent : BitVec 11}
    {fraction : BitVec 52} (hzero : exponent ≠ 0#11) (hspecial : exponent ≠ -1#11) :
    UnpackedFloat.unpack .binary64 (packComponents .binary64 sign exponent fraction) =
      .finite sign (2 ^ 52 + fraction.toNat) (exponent.toNat - 1075) (by omega) := by
  unfold UnpackedFloat.unpack
  simp only [unpackMantissa_packComponents, unpackExponent_packComponents,
    unpackSign_packComponents, Sign.ofBitVec_toBitVec, if_neg hzero, if_neg hspecial]
  exact finite_congr (toNat_one_append fraction) rfl

theorem unpack_packComponents_subnormal {sign : Sign} {fraction : BitVec 52}
    (hpos : 0 < fraction.toNat) :
    UnpackedFloat.unpack .binary64 (packComponents .binary64 sign 0#11 fraction) =
      .finite sign fraction.toNat (-1074) hpos := by
  have hzero : fraction ≠ 0#52 := by
    rintro rfl
    exact absurd hpos (by decide)
  have hspecial : 0#11 ≠ -1#11 := by decide
  unfold UnpackedFloat.unpack
  simp only [unpackMantissa_packComponents, unpackExponent_packComponents,
    unpackSign_packComponents, Sign.ofBitVec_toBitVec, if_neg hspecial, if_true, dif_neg hzero]
  exact finite_congr rfl (by decide)

theorem pack_normal {sign : Sign} {mantissa : Nat} {exponent : Int} {hpos : 0 < mantissa}
    (h : Canonical mantissa exponent) (hnormal : 2 ^ 52 ≤ mantissa) :
    UnpackedFloat.pack .binary64 (.finite sign mantissa exponent hpos) =
      packComponents .binary64 sign (BitVec.ofNat 11 (exponent + 1075).toNat)
        (BitVec.ofNat 52 mantissa) := by
  have hle := h.le_greatest
  have hbiased : (exponent + Format.binary64.exponentBias +
      Format.binary64.mantissaBitsWithoutImplicit).toNat = (exponent + 1075).toNat := by
    change (exponent + (1023 : Nat) + (52 : Nat)).toNat = _
    omega
  have hbits : mantissa.log2 + 1 = Format.binary64.mantissaBits := by
    rw [log2_eq_of_normal hnormal h.mantissa_lt]
    rfl
  unfold UnpackedFloat.pack
  simp only [hbiased]
  rw [if_neg (by omega), if_pos hbits]

theorem pack_subnormal {sign : Sign} {mantissa : Nat} {hpos : 0 < mantissa}
    (h : mantissa < 2 ^ 52) :
    UnpackedFloat.pack .binary64 (.finite sign mantissa (-1074) hpos) =
      packComponents .binary64 sign 0#11 (BitVec.ofNat 52 mantissa) := by
  have hbits : mantissa.log2 + 1 ≠ Format.binary64.mantissaBits := by
    have hlog := log2_lt_of_subnormal h
    change mantissa.log2 + 1 ≠ 53
    omega
  unfold UnpackedFloat.pack
  rw [if_neg (by decide), if_neg hbits]

/-- Packing keeps canonical parts. -/
theorem unpack_pack_finite {sign : Sign} {mantissa : Nat} {exponent : Int}
    {hpos : 0 < mantissa} (h : Canonical mantissa exponent) :
    (Float.Model.pack (.finite sign mantissa exponent hpos)).unpack =
      .finite sign mantissa exponent hpos := by
  have hlow := h.least_le
  have hhigh := h.le_greatest
  have hmantissa := h.mantissa_lt
  change UnpackedFloat.unpack .binary64 (UnpackedFloat.pack .binary64 _) = _
  by_cases hnormal : 2 ^ 52 ≤ mantissa
  · have hbiased : (BitVec.ofNat 11 (exponent + 1075).toNat).toNat = (exponent + 1075).toNat := by
      rw [BitVec.toNat_ofNat]
      omega
    have hfraction : (BitVec.ofNat 52 mantissa).toNat = mantissa - 2 ^ 52 := by
      rw [BitVec.toNat_ofNat]
      omega
    have hzero : BitVec.ofNat 11 (exponent + 1075).toNat ≠ 0#11 := fun heq => by
      rw [heq] at hbiased
      change 0 = _ at hbiased
      omega
    have hspecial : BitVec.ofNat 11 (exponent + 1075).toNat ≠ -1#11 := fun heq => by
      rw [heq] at hbiased
      change 2047 = _ at hbiased
      omega
    rw [pack_normal h hnormal, unpack_packComponents_normal hzero hspecial]
    exact finite_congr (by omega) (by omega)
  · obtain rfl := h.normal.resolve_left hnormal
    have hfraction : (BitVec.ofNat 52 mantissa).toNat = mantissa := by
      rw [BitVec.toNat_ofNat]
      omega
    rw [pack_subnormal (by omega), unpack_packComponents_subnormal (by omega)]
    exact finite_congr hfraction rfl

/-! ## Rounding -/

theorem targetExponent_binary64 (total : Int) :
    Format.binary64.targetExponent total = max (total - 53) (-1074) := rfl

theorem log2_mul_two_pow {mantissa : Nat} (hpos : 0 < mantissa) (shift : Nat) :
    (mantissa * 2 ^ shift).log2 = mantissa.log2 + shift := by
  rw [Nat.log2_eq_iff (Nat.mul_pos hpos (Nat.two_pow_pos shift)).ne']
  rw [Nat.pow_add, Nat.add_right_comm, Nat.pow_add]
  exact ⟨Nat.mul_le_mul_right _ (Nat.log2_self_le hpos.ne'),
    Nat.mul_lt_mul_of_pos_right Nat.lt_log2_self (Nat.two_pow_pos shift)⟩

/-- At its target exponent or above, a mantissa loses no bits. -/
theorem shiftToTargetExponent_of_le {mantissa : Nat} {exponent : Int}
    (h : Format.binary64.targetExponent (totalExponent mantissa exponent) ≤ exponent) :
    shiftToTargetExponent .binary64 mantissa exponent .exact =
      (⟨mantissa, false, false⟩, exponent) := by
  have hshift : (Format.binary64.targetExponent (totalExponent mantissa exponent) -
      exponent).toNat = 0 := by omega
  unfold shiftToTargetExponent shiftToExponent
  simp only [hshift]
  exact Prod.ext rfl (Int.add_zero exponent)

theorem roundWithAccuracy_of_le {sign : Sign} {mantissa : Nat} {exponent : Int}
    (h : Format.binary64.targetExponent (totalExponent mantissa exponent) ≤ exponent) :
    roundWithAccuracy .binary64 sign mantissa exponent .exact =
      if hzero : mantissa = 0 then .zero sign
      else .finite sign mantissa exponent (Nat.pos_of_ne_zero hzero) := by
  have hrounded : (ExtendedMantissa.mk mantissa false false).roundedMantissa = mantissa := rfl
  unfold roundWithAccuracy
  simp only [shiftToTargetExponent_of_le h, hrounded]

theorem round_zero {sign : Sign} {exponent : Int} (hleast : -1074 ≤ exponent) :
    UnpackedFloat.round .binary64 sign 0 exponent = .zero sign := by
  have hlog : Nat.log2 0 = 0 := Nat.log2_zero
  unfold UnpackedFloat.round decreaseExponent
  simp only [Nat.zero_shiftLeft]
  rw [roundWithAccuracy_of_le, dif_pos rfl]
  simp only [targetExponent_binary64, totalExponent, hlog]
  omega

/-- Parts that fit are not rounded, only shifted until they are canonical: a mantissa of at
most 53 bits at an exponent of the format keeps its value. -/
theorem round_of_fits (sign : Sign) {mantissa : Nat} {exponent : Int} (hpos : 0 < mantissa)
    (hmantissa : mantissa < 2 ^ 53) (hleast : -1074 ≤ exponent) (hgreatest : exponent ≤ 971) :
    ∃ (shift : Nat) (hpos' : 0 < mantissa * 2 ^ shift),
      UnpackedFloat.round .binary64 sign mantissa exponent =
          .finite sign (mantissa * 2 ^ shift) (exponent - shift) hpos' ∧
        Canonical (mantissa * 2 ^ shift) (exponent - shift) := by
  have hlog : mantissa.log2 < 53 := (Nat.log2_lt hpos.ne').2 hmantissa
  -- down to where the mantissa fills its 53 bits, but not below the least exponent
  obtain ⟨shift, hshift⟩ : ∃ shift : Nat,
      exponent - shift = max (mantissa.log2 + 1 + exponent - 53) (-1074) :=
    ⟨(exponent - max (mantissa.log2 + 1 + exponent - 53) (-1074)).toNat, by omega⟩
  have hpos' : 0 < mantissa * 2 ^ shift := Nat.mul_pos hpos (Nat.two_pow_pos shift)
  have hlog' := log2_mul_two_pow hpos shift
  have htarget : Format.binary64.targetExponent
      (totalExponent (mantissa * 2 ^ shift) (exponent - shift)) = exponent - shift := by
    rw [targetExponent_binary64, totalExponent, hlog']
    omega
  refine ⟨shift, hpos', ?_, ?_, by omega, by omega, ?_⟩
  · have hamount : (exponent - Format.binary64.targetExponent
        (totalExponent mantissa exponent)).toNat = shift := by
      rw [targetExponent_binary64, totalExponent]
      omega
    unfold UnpackedFloat.round decreaseExponent
    simp only [hamount, Nat.shiftLeft_eq]
    rw [roundWithAccuracy_of_le (le_of_eq htarget), dif_neg hpos'.ne']
  · exact (Nat.log2_lt hpos'.ne').1 (by omega)
  · by_cases hleast' : exponent - shift = -1074
    · exact .inr hleast'
    · exact .inl ((Nat.le_log2 hpos'.ne').1 (by omega))

end Binary64

end Formula
