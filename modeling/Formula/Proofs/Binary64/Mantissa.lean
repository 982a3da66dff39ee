import Formula.Binary64.Elementary
import Formula.Proofs.Binary64.Rounding

/-!
# Mantissas that are cut off

The core library computes a result as a mantissa with two more bits: the next digit, and
whether any digit after it is set. These describe the exact number closely enough to
round it, and shifting digits out keeps the description.
-/

namespace Formula

namespace Binary64

open Float.Model (UnpackedFloat Format totalExponent)
open Float.Model.UnpackedFloat

/-! ## Residual bits -/

/-- The digits of a mantissa up to the round bit, as a whole number of halves. -/
def halves (em : ExtendedMantissa) : ℕ :=
  2 * em.mantissa + em.roundBit.toNat

/-- The number `v` cut to its halves is `em`, and the sticky bit tells if a rest was cut. -/
structure Describes (em : ExtendedMantissa) (v : ℚ) : Prop where
  le : (halves em : ℚ) ≤ 2 * v
  lt : 2 * v < halves em + 1
  sticky : em.stickyBit = false ↔ 2 * v = halves em

variable {em : ExtendedMantissa} {v : ℚ} {m n : ℕ} {e : ℤ}

theorem halves_low (m : ℕ) (stickyBit : Bool) : (halves ⟨m, false, stickyBit⟩ : ℚ) = 2 * m := by
  simp [halves]

theorem halves_high (m : ℕ) (stickyBit : Bool) :
    (halves ⟨m, true, stickyBit⟩ : ℚ) = 2 * m + 1 := by
  simp [halves]

theorem halves_shiftRightOne : halves em.shiftRightOne = em.mantissa := by
  have hbit : (em.mantissa % 2 != 0).toNat = em.mantissa % 2 := by
    rcases Nat.mod_two_eq_zero_or_one em.mantissa with h | h <;> rw [h] <;> rfl
  change 2 * (em.mantissa / 2) + (em.mantissa % 2 != 0).toNat = em.mantissa
  rw [hbit, Nat.div_add_mod]

theorem Describes.mantissa_le (h : Describes em v) : em.mantissa ≤ v := by
  have hbits : 2 * em.mantissa ≤ halves em := Nat.le_add_right _ _
  have hbits' : (2 * em.mantissa : ℚ) ≤ halves em := by exact_mod_cast hbits
  linarith [h.le]

theorem Describes.lt_mantissa_succ (h : Describes em v) : v < em.mantissa + 1 := by
  have hbits : halves em ≤ 2 * em.mantissa + 1 := Nat.add_le_add_left em.roundBit.toNat_le _
  have hbits' : (halves em : ℚ) ≤ 2 * em.mantissa + 1 := by exact_mod_cast hbits
  linarith [h.lt]

theorem Describes.shiftRightOne (h : Describes em v) : Describes em.shiftRightOne (v / 2) := by
  have hhalf : 2 * (v / 2) = v := mul_div_cancel₀ v two_ne_zero
  refine ⟨?_, ?_, ?_⟩ <;> rw [halves_shiftRightOne, hhalf]
  · exact h.mantissa_le
  · exact h.lt_mantissa_succ
  · -- a set round bit is part of the rest from now on
    rcases em with ⟨m, roundBit, stickyBit⟩
    cases roundBit with
    | false =>
        have hsticky := h.sticky
        rw [halves_low] at hsticky
        exact hsticky.trans (mul_right_inj' two_ne_zero)
    | true =>
        have hle := h.le
        rw [halves_high] at hle
        refine ⟨fun hfalse => (nomatch hfalse), fun heq => ?_⟩
        change v = m at heq
        linarith

/-- Shifting digits out divides the number that is described. -/
theorem Describes.shiftRight (h : Describes em v) (shift : ℕ) :
    Describes (em >>> shift) (v / 2 ^ shift) := by
  induction shift with
  | zero =>
      rw [pow_zero, div_one]
      exact h
  | succ shift ih =>
      rw [pow_succ, ← div_div]
      exact ih.shiftRightOne

theorem isNearestEven_of_lt {n : ℤ} (h : |v - n| < 1 / 2) : IsNearestEven v n :=
  ⟨h.le, fun htie => absurd htie h.ne⟩

/-- The rounded mantissa is the nearest whole number. -/
theorem Describes.isNearestEven (h : Describes em v) :
    IsNearestEven v (em.roundedMantissa : ℤ) := by
  rcases em with ⟨m, roundBit, stickyBit⟩
  have hle := h.le
  have hlt := h.lt
  have hsticky := h.sticky
  cases roundBit with
  | false =>
      rw [halves_low] at hle hlt
      -- less than a half is cut off, whether or not there is a rest
      have hround : (ExtendedMantissa.mk m false stickyBit).roundedMantissa = m := by
        cases stickyBit <;> rfl
      rw [hround]
      refine isNearestEven_of_lt ?_
      rw [Int.cast_natCast, abs_lt]
      constructor <;> linarith
  | true =>
      rw [halves_high] at hle hlt hsticky
      cases stickyBit with
      | true =>
          change IsNearestEven v ((m + 1 : ℕ) : ℤ)
          have hne : 2 * v ≠ 2 * m + 1 := fun heq => nomatch hsticky.2 heq
          have hmore : (2 * m + 1 : ℚ) < 2 * v := lt_of_le_of_ne hle hne.symm
          refine isNearestEven_of_lt ?_
          rw [Int.cast_natCast, Nat.cast_succ, abs_lt]
          constructor <;> linarith
      | false =>
          change IsNearestEven v ((m + m % 2 : ℕ) : ℤ)
          have hv : v = m + 1 / 2 := by
            have := hsticky.1 rfl
            linarith
          subst hv
          rcases Nat.mod_two_eq_zero_or_one m with hmod | hmod <;> rw [hmod]
          · refine ⟨?_, fun _ => ?_⟩
            · rw [Int.cast_natCast, Nat.add_zero, add_sub_cancel_left, abs_of_pos (by norm_num)]
            · exact (Int.even_coe_nat _).2 (Nat.even_iff.2 (by omega))
          · refine ⟨?_, fun _ => ?_⟩
            · rw [Int.cast_natCast, Nat.cast_succ, abs_le]
              constructor <;> linarith
            · exact (Int.even_coe_nat _).2 (Nat.even_iff.2 (by omega))

theorem describes_exact (m : ℕ) : Describes (.ofMantissaAndAccuracy m .exact) m := by
  change Describes ⟨m, false, false⟩ m
  have hhalves := halves_low m false
  exact ⟨hhalves.le, hhalves ▸ lt_add_one _, iff_of_true rfl hhalves.symm⟩

/-- The rest of a division describes the digits of the quotient. -/
theorem describes_fraction (m : ℕ) {rest divisor : ℕ} (h : rest < divisor) :
    Describes (.ofMantissaAndAccuracy m (accuracyOfFraction rest divisor))
      (m + rest / divisor) := by
  have hdivisor : (0 : ℚ) < divisor := by exact_mod_cast Nat.zero_lt_of_lt h
  rcases Nat.eq_zero_or_pos rest with rfl | hrest
  · rw [Nat.cast_zero, zero_div, add_zero]
    exact describes_exact m
  have hlow : (0 : ℚ) < rest / divisor := div_pos (by exact_mod_cast hrest) hdivisor
  have hhigh : (rest / divisor : ℚ) < 1 := (div_lt_one hdivisor).2 (by exact_mod_cast h)
  have hscaled : ((2 * rest : ℕ) : ℚ) / divisor = 2 * (rest / divisor) := by
    push_cast
    ring
  unfold accuracyOfFraction
  rw [if_neg hrest.ne']
  -- where twice the rest stands to the divisor, the fraction stands to a half
  rcases lt_trichotomy (2 * rest) divisor with hcompare | hcompare | hcompare
  · have hless : 2 * (rest / divisor : ℚ) < 1 := by
      rw [← hscaled]
      exact (div_lt_one hdivisor).2 (by exact_mod_cast hcompare)
    rw [compare_lt_iff_lt.2 hcompare]
    change Describes ⟨m, false, true⟩ _
    refine ⟨?_, ?_, ?_⟩ <;> rw [halves_low]
    · linarith
    · linarith
    · exact ⟨fun hfalse => (nomatch hfalse), fun heq => by linarith⟩
  · have hequal : 2 * (rest / divisor : ℚ) = 1 := by
      rw [← hscaled, hcompare]
      exact div_self hdivisor.ne'
    rw [compare_eq_iff_eq.2 hcompare]
    change Describes ⟨m, true, false⟩ _
    refine ⟨?_, ?_, ?_⟩ <;> rw [halves_high]
    · linarith
    · linarith
    · exact iff_of_true rfl (by linarith)
  · have hmore : 1 < 2 * (rest / divisor : ℚ) := by
      rw [← hscaled]
      exact (one_lt_div hdivisor).2 (by exact_mod_cast hcompare)
    rw [compare_gt_iff_gt.2 hcompare]
    change Describes ⟨m, true, true⟩ _
    refine ⟨?_, ?_, ?_⟩ <;> rw [halves_high]
    · linarith
    · linarith
    · exact ⟨fun hfalse => (nomatch hfalse), fun heq => by linarith⟩

/-! ## Rounding a mantissa -/

theorem targetExponent_of_mantissa (m : ℕ) (e : ℤ) :
    Format.binary64.targetExponent (totalExponent m e) = max (m.log2 + 1 + e - 53) (-1074) :=
  targetExponent_binary64 _

theorem mantissa_ofMantissaAndAccuracy (m : ℕ) (acc : Accuracy) :
    (ExtendedMantissa.ofMantissaAndAccuracy m acc).mantissa = m := by
  rcases acc with _ | order
  · rfl
  · cases order <;> rfl

theorem natCast_lt_two_pow_log2 (m : ℕ) : (m + 1 : ℚ) ≤ 2 ^ (m.log2 + 1) := by
  exact_mod_cast Nat.lt_log2_self (n := m)

/-- Shifted to the unit of 53 digits, a mantissa rounds the number that it describes. -/
theorem Describes.roundsAt {acc : Accuracy} (h : Describes (.ofMantissaAndAccuracy m acc) v)
    {shift : ℕ} (hunit : e + shift = Format.binary64.targetExponent (totalExponent m e)) :
    RoundsAt (v * 2 ^ e) (e + shift)
      ((ExtendedMantissa.ofMantissaAndAccuracy m acc >>> shift).roundedMantissa : ℕ) := by
  rw [targetExponent_of_mantissa] at hunit
  have hlow := h.mantissa_le
  have hhigh := h.lt_mantissa_succ
  rw [mantissa_ofMantissaAndAccuracy] at hlow hhigh
  have hv : 0 ≤ v := (Nat.cast_nonneg m).trans hlow
  have habs : |v * 2 ^ e| = v * 2 ^ e := abs_of_nonneg (mul_nonneg hv (two_zpow_pos e).le)
  refine ⟨by omega, ?_, ?_, ?_⟩
  · rw [habs]
    calc v * 2 ^ e < 2 ^ (m.log2 + 1) * 2 ^ e :=
          mul_lt_mul_of_pos_right (hhigh.trans_le (natCast_lt_two_pow_log2 m)) (two_zpow_pos e)
      _ = 2 ^ (e + (m.log2 + 1 : ℕ)) := (two_zpow_add e _).symm
      _ ≤ 2 ^ (e + shift + 53) := zpow_le_zpow_right₀ one_le_two (by omega)
  · by_cases hleast : e + shift = -1074
    · exact .inr hleast
    -- above the least unit the mantissa has 53 digits before the shift
    have hm : m ≠ 0 := by
      rintro rfl
      have hlog : Nat.log2 0 = 0 := Nat.log2_zero
      omega
    refine .inl ?_
    rw [habs]
    calc (2 : ℚ) ^ (e + shift + 52) = 2 ^ (e + m.log2) := by
          congr 1
          omega
      _ = 2 ^ m.log2 * 2 ^ e := two_zpow_add e _
      _ ≤ v * 2 ^ e := by
          refine mul_le_mul_of_nonneg_right (le_trans ?_ hlow) (two_zpow_pos e).le
          exact_mod_cast Nat.log2_self_le hm
  · rw [two_zpow_add, mul_div_mul_right _ _ (two_zpow_pos e).ne']
    exact (h.shiftRight shift).isNearestEven

theorem shiftToTargetExponent_carry {unit : ℤ} (hleast : -1074 ≤ unit) :
    shiftToTargetExponent .binary64 (2 ^ 53) unit .exact = (⟨2 ^ 52, false, false⟩, unit + 1) := by
  have hlog : (2 ^ 53 : ℕ).log2 = 53 := Nat.log2_two_pow
  have hshift :
      (Format.binary64.targetExponent (totalExponent (2 ^ 53) unit) - unit).toNat = 1 := by
    rw [targetExponent_of_mantissa, hlog]
    omega
  unfold shiftToTargetExponent shiftToExponent
  simp only [hshift]
  rfl

theorem shiftToTargetExponent_fits {n : ℕ} {unit : ℤ} (hn : n < 2 ^ 53) (hleast : -1074 ≤ unit) :
    shiftToTargetExponent .binary64 n unit .exact = (⟨n, false, false⟩, unit) := by
  have hlog : n.log2 < 53 := by
    rcases Nat.eq_zero_or_pos n with rfl | hpos
    · decide
    · exact (Nat.log2_lt hpos.ne').2 hn
  refine shiftToTargetExponent_of_le ?_
  rw [targetExponent_of_mantissa]
  omega

/-- The rounded mantissa is the result. Only where rounding carries into a digit of its own is
there one more shift. -/
theorem roundWithAccuracy_cases (sign : Sign) {acc : Accuracy} {shift n : ℕ}
    (hunit : e + shift = Format.binary64.targetExponent (totalExponent m e))
    (hn : (ExtendedMantissa.ofMantissaAndAccuracy m acc >>> shift).roundedMantissa = n)
    (hle : n ≤ 2 ^ 53) :
    n = 0 ∧ roundWithAccuracy .binary64 sign m e acc = .zero sign ∨
      (n < 2 ^ 53 ∧ ∃ hpos,
        roundWithAccuracy .binary64 sign m e acc = .finite sign n (e + shift) hpos) ∨
      n = 2 ^ 53 ∧
        roundWithAccuracy .binary64 sign m e acc =
          .finite sign (2 ^ 52) (e + shift + 1) (by decide) := by
  have hleast : -1074 ≤ e + shift := by
    rw [hunit, targetExponent_of_mantissa]
    omega
  have hfirst : shiftToTargetExponent .binary64 m e acc =
      (ExtendedMantissa.ofMantissaAndAccuracy m acc >>> shift, e + shift) := by
    have hshift : (Format.binary64.targetExponent (totalExponent m e) - e).toNat = shift := by
      omega
    unfold shiftToTargetExponent shiftToExponent
    simp only [hshift]
  unfold roundWithAccuracy
  rcases hle.lt_or_eq with hlt | rfl
  · simp only [hfirst, hn, shiftToTargetExponent_fits hlt hleast]
    rcases Nat.eq_zero_or_pos n with rfl | hpos
    · exact .inl ⟨rfl, rfl⟩
    · exact .inr (.inl ⟨hlt, hpos, dif_neg hpos.ne'⟩)
  · refine .inr (.inr ⟨rfl, ?_⟩)
    simp only [hfirst, hn, shiftToTargetExponent_carry hleast]
    rfl

end Binary64

end Formula
