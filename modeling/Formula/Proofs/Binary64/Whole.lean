import Formula.Proofs.Binary64.Arithmetic

/-!
# Doubles that are whole numbers

A double whose number is a natural number is converted without loss, by reading off its
whole part as well as by truncation to a word of 32 bits that can hold it.
-/

namespace Formula

namespace Binary64

open Float.Model (UnpackedFloat)
open Float.Model.UnpackedFloat

variable {x : Float} {m n : ℕ} {e : ℤ}

theorem unpack_of_value?_natCast (h : value? x = some (n : ℚ)) :
    (∃ sign, x.toModel.unpack = .zero sign ∧ n = 0) ∨
      ∃ m e hm, x.toModel.unpack = .finite .positive m e hm ∧ (m : ℚ) * 2 ^ e = n := by
  obtain ⟨sign, hux, hzero⟩ | ⟨sign, m, e, hm, hux, -, hvalue⟩ := unpack_of_value? h
  · exact .inl ⟨sign, hux, Nat.cast_eq_zero.1 hzero⟩
  · cases sign with
    | positive => exact .inr ⟨m, e, hm, hux, hvalue.symm⟩
    | negative =>
        have hnegative : (n : ℚ) < 0 := hvalue ▸ neg_magnitude_neg hm
        exact absurd hnegative (Nat.cast_nonneg n).not_gt

/-- A natural number is the mantissa, shifted up or down by the exponent without a rest. -/
theorem shifted_of_eq (h : (m : ℚ) * 2 ^ e = n) :
    m * 2 ^ e.toNat = n * 2 ^ (-e).toNat := by
  have hsplit : e + ((-e).toNat : ℤ) = (e.toNat : ℤ) := by omega
  have hscaled : (m : ℚ) * 2 ^ (e.toNat : ℤ) = n * 2 ^ (-e).toNat := by
    rw [← hsplit, two_zpow_add, ← h]
    ring
  exact_mod_cast hscaled

theorem wholePart_of_value? (h : value? x = some (n : ℚ)) : wholePart x = n := by
  obtain ⟨sign, hux, rfl⟩ | ⟨m, e, hm, hux, hvalue⟩ := unpack_of_value?_natCast h
  · simp only [wholePart, hux]
  · have hshifted := shifted_of_eq hvalue
    simp only [wholePart, hux]
    by_cases he : 0 ≤ e
    · have hdown : (-e).toNat = 0 := by omega
      rw [hdown, pow_zero, mul_one] at hshifted
      rw [if_pos he]
      exact hshifted
    · have hup : e.toNat = 0 := by omega
      rw [hup, pow_zero, mul_one] at hshifted
      rw [if_neg he, hshifted]
      exact Nat.mul_div_cancel n (Nat.two_pow_pos _)

/-- Where a whole number is described, nothing of it was cut off. -/
theorem Describes.mantissa_eq {em : ExtendedMantissa} (h : Describes em n) : em.mantissa = n := by
  have hlow : em.mantissa ≤ n := by exact_mod_cast h.mantissa_le
  have hhigh : n < em.mantissa + 1 := by exact_mod_cast h.lt_mantissa_succ
  omega

theorem roundToInt_of_eq (h : (m : ℚ) * 2 ^ e = n) : roundToInt .positive m e = n := by
  have hshifted := shifted_of_eq h
  have hdown : (0 - (e - (e.toNat : ℤ))).toNat = (-e).toNat := by omega
  have hpower : (2 : ℚ) ^ (-e).toNat ≠ 0 := by positivity
  have hvalue : ((n * 2 ^ (-e).toNat : ℕ) : ℚ) / 2 ^ (-e).toNat = n := by
    rw [Nat.cast_mul, Nat.cast_pow, Nat.cast_two, mul_div_cancel_right₀ _ hpower]
  have hdescribed := (describes_exact (n * 2 ^ (-e).toNat)).shiftRight (-e).toNat
  rw [hvalue] at hdescribed
  unfold roundToInt decreaseExponent shiftToExponent
  simp only [sub_zero, hdown, Nat.shiftLeft_eq, hshifted, hdescribed.mantissa_eq]
  rfl

/-- A word of 32 bits takes a natural number that it can hold as it is. -/
theorem toUInt32_of_value? (h : value? x = some (n : ℚ)) (hn : n < 2 ^ 32) :
    x.toUInt32.toNat = n := by
  have hint : toInt 0 (UInt32.size - 1) x.toModel.unpack = n := by
    obtain ⟨sign, hux, rfl⟩ | ⟨m, e, hm, hux, hvalue⟩ := unpack_of_value?_natCast h
    · rw [hux]
      rfl
    · rw [hux]
      exact roundToInt_of_eq hvalue
  change (UInt32.ofNatClamp (toInt 0 (UInt32.size - 1) x.toModel.unpack).toNat).toNat = n
  rw [hint]
  exact UInt32.toNat_ofNatClamp_of_lt hn

end Binary64

end Formula
