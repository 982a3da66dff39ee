import Formula.Proofs.Binary64.Mantissa

/-!
# Arithmetic of doubles

A sum, a difference, a product or a quotient of doubles is the exact one rounded to 53
digits, and an infinity where its magnitude is then above all doubles.
-/

namespace Formula

namespace Binary64

open Float.Model (UnpackedFloat Format totalExponent)
open Float.Model.UnpackedFloat

/-- The double `x` is `r`, or an infinity where the magnitude of `r` is out of range. -/
inductive Holds (x : Float) (r : ℚ) : Prop
  | value (hrange : |r| < limit) (hx : value? x = some r)
  | above (hrange : limit ≤ r) (hx : x = infinity)
  | below (hrange : r ≤ -limit) (hx : x = -infinity)

/-- The double `x` is what the exact number `q` is rounded to. -/
def Gives (x : Float) (q : ℚ) : Prop :=
  ∃ r, Rounds q r ∧ Holds x r

/-- The number `q` under a sign. -/
def signed (sign : Sign) (q : ℚ) : ℚ :=
  match sign with
  | .positive => q
  | .negative => -q

variable {x y : Float} {p q r : ℚ} {sign : Sign} {m n : ℕ} {e f : ℤ}

theorem apply_eq_signed (sign : Sign) (m : ℕ) : (sign.apply m : ℚ) = signed sign m := by
  cases sign with
  | positive => exact apply_positive
  | negative => exact apply_negative

theorem signed_mul (sign : Sign) (p q : ℚ) : signed sign p * q = signed sign (p * q) := by
  cases sign with
  | positive => rfl
  | negative => exact neg_mul p q

theorem abs_signed (sign : Sign) (q : ℚ) : |signed sign q| = |q| := by
  cases sign with
  | positive => rfl
  | negative => exact abs_neg q

theorem Rounds.signed (sign : Sign) (h : Rounds q r) : Rounds (signed sign q) (signed sign r) := by
  cases sign with
  | positive => exact h
  | negative => exact h.neg

/-! ## Packing -/

theorem magnitude_lt (hm : m < 2 ^ 53) (hgreatest : e ≤ 971) :
    |signed sign (m * 2 ^ e)| < limit := by
  rw [abs_signed, abs_of_nonneg (mul_nonneg (Nat.cast_nonneg m) (two_zpow_pos e).le)]
  calc (m : ℚ) * 2 ^ e < 2 ^ 53 * 2 ^ e :=
        mul_lt_mul_of_pos_right (by exact_mod_cast hm) (two_zpow_pos e)
    _ ≤ 2 ^ 53 * 2 ^ (971 : ℤ) :=
        mul_le_mul_of_nonneg_left (zpow_le_zpow_right₀ one_le_two hgreatest) (by positivity)
    _ = limit := limit_eq.symm

theorem magnitude_ge (hm : 2 ^ 52 ≤ m) (hgreat : 972 ≤ e) : limit ≤ m * 2 ^ e := by
  calc limit = 2 ^ 52 * 2 ^ (972 : ℤ) := two_zpow_add 972 52
    _ ≤ 2 ^ 52 * 2 ^ e :=
        mul_le_mul_of_nonneg_left (zpow_le_zpow_right₀ one_le_two hgreat) (by positivity)
    _ ≤ m * 2 ^ e := mul_le_mul_of_nonneg_right (by exact_mod_cast hm) (two_zpow_pos e).le

theorem pack_above {hpos : 0 < m} (hgreat : 972 ≤ e) :
    Float.ofModel (.pack (.finite sign m e hpos)) = .ofModel (.pack (.infinity sign)) := by
  have hbiased : 2 ^ Format.binary64.exponentBits ≤ (e + Format.binary64.exponentBias +
      Format.binary64.mantissaBitsWithoutImplicit).toNat + 1 := by
    change 2048 ≤ (e + (1023 : ℕ) + (52 : ℕ)).toNat + 1
    omega
  have hpack : UnpackedFloat.pack .binary64 (.finite sign m e hpos) =
      UnpackedFloat.pack .binary64 (.infinity sign) := by
    unfold UnpackedFloat.pack
    exact if_pos hbiased
  unfold Float.Model.pack
  simp only [hpack]

/-- Parts that are canonical but for too great an exponent are packed as an infinity. -/
theorem holds_pack_finite {hpos : 0 < m} (hm : m < 2 ^ 53) (hleast : -1074 ≤ e)
    (hnormal : 2 ^ 52 ≤ m ∨ e = -1074) :
    Holds (.ofModel (.pack (.finite sign m e hpos))) (signed sign (m * 2 ^ e)) := by
  rcases le_or_gt e 971 with hgreatest | hgreat
  · have hvalue : value? (.ofModel (.pack (.finite sign m e hpos))) = _ :=
      value?_pack_finite ⟨hm, hleast, hgreatest, hnormal⟩
    rw [apply_eq_signed, signed_mul] at hvalue
    exact .value (magnitude_lt hm hgreatest) hvalue
  · have hrange : limit ≤ m * 2 ^ e :=
      magnitude_ge (hnormal.resolve_right (by omega)) hgreat
    rw [pack_above hgreat]
    cases sign with
    | positive => exact .above hrange rfl
    | negative => exact .below (neg_le_neg hrange) rfl

theorem holds_zero (sign : Sign) : Holds (.ofModel (.pack (.zero sign))) 0 := by
  refine .value (abs_zero.trans_lt limit_pos) ?_
  cases sign <;> rfl

theorem gives_zero (sign : Sign) : Gives (.ofModel (.pack (.zero sign))) 0 :=
  ⟨0, .of_value? (x := 0) rfl, holds_zero sign⟩

theorem abs_lt_of_value? (h : value? x = some p) : |p| < limit := by
  rcases unpack_of_value? h with ⟨_, _, rfl⟩ | ⟨sign, m, e, _, _, hcanonical, rfl⟩
  · exact abs_zero.trans_lt limit_pos
  · rw [apply_eq_signed, signed_mul]
    exact magnitude_lt hcanonical.mantissa_lt hcanonical.le_greatest

theorem abs_lt_overflow_of_value? (h : value? x = some p) : |p| < overflow :=
  (Rounds.of_value? h).abs_lt_limit_iff.1 (abs_lt_of_value? h)

theorem gives_of_value? (h : value? x = some p) : Gives x p :=
  ⟨p, .of_value? h, .value (abs_lt_of_value? h) h⟩

/-! ## Rounding to a double -/

/-- A described number is rounded from where its mantissa has at least 53 digits. -/
theorem gives_roundWithAccuracy (sign : Sign) {acc : Accuracy} {v : ℚ}
    (h : Describes (.ofMantissaAndAccuracy m acc) v)
    (hle : e ≤ Format.binary64.targetExponent (totalExponent m e)) :
    Gives (.ofModel (.pack (roundWithAccuracy .binary64 sign m e acc)))
      (signed sign (v * 2 ^ e)) := by
  obtain ⟨shift, hunit⟩ := Int.le.dest hle
  have hrounds := h.roundsAt hunit
  obtain ⟨n, hn⟩ : ∃ n,
      (ExtendedMantissa.ofMantissaAndAccuracy m acc >>> shift).roundedMantissa = n := ⟨_, rfl⟩
  rw [hn] at hrounds
  have habove : n ≤ 2 ^ 53 := by exact_mod_cast hrounds.le_above
  have hnormal : 2 ^ 52 ≤ n ∨ e + shift = -1074 := by
    refine hrounds.normal.imp_left fun hlow => ?_
    have hv : 0 ≤ v * 2 ^ e :=
      mul_nonneg ((Nat.cast_nonneg _).trans h.mantissa_le) (two_zpow_pos e).le
    rw [abs_of_nonneg hv] at hlow
    exact_mod_cast hrounds.le_of_normal hlow
  refine ⟨signed sign (n * 2 ^ (e + shift)), Rounds.signed sign ⟨_, _, hrounds, by norm_cast⟩, ?_⟩
  rcases roundWithAccuracy_cases sign hunit hn habove with
    ⟨rfl, hround⟩ | ⟨hlt, hpos, hround⟩ | ⟨rfl, hround⟩ <;> rw [hround]
  · have hzero : signed sign (((0 : ℕ) : ℚ) * 2 ^ (e + shift)) = 0 := by
      rw [Nat.cast_zero, zero_mul]
      cases sign <;> rfl
    rw [hzero]
    exact holds_zero sign
  · exact holds_pack_finite hlt hrounds.least_le hnormal
  · -- rounding carried: the mantissa has one digit more than fits
    have hcarry : ((2 ^ 53 : ℕ) : ℚ) * 2 ^ (e + shift) = (2 ^ 52 : ℕ) * 2 ^ (e + shift + 1) := by
      have hnext : (2 : ℚ) ^ (e + shift + 1) = 2 ^ 1 * 2 ^ (e + shift) := two_zpow_add (e + shift) 1
      rw [hnext]
      push_cast
      ring
    rw [hcarry]
    have hleast := hrounds.least_le
    exact holds_pack_finite (by decide) (by omega) (.inl le_rfl)

theorem gives_nearest (sign : Sign) (hm : 0 < m) (e : ℤ) :
    Gives (nearest sign m e) (signed sign (m * 2 ^ e)) := by
  obtain ⟨shift, hshift⟩ : ∃ shift,
      (e - Format.binary64.targetExponent (totalExponent m e)).toNat = shift := ⟨_, rfl⟩
  have hvalue : (m : ℚ) * 2 ^ e = (m * 2 ^ shift : ℕ) * 2 ^ (e - shift) :=
    (apply_shifted .positive m shift e).symm
  have hround : UnpackedFloat.round .binary64 sign m e =
      roundWithAccuracy .binary64 sign (m * 2 ^ shift) (e - shift) .exact := by
    unfold UnpackedFloat.round decreaseExponent
    simp only [hshift, Nat.shiftLeft_eq]
  rw [nearest, hround, hvalue]
  refine gives_roundWithAccuracy sign (describes_exact _) ?_
  rw [targetExponent_of_mantissa] at hshift ⊢
  rw [log2_mul_two_pow hm]
  omega

theorem gives_normalize (k e : ℤ) (zeroSign : Sign) :
    Gives (.ofModel (.pack (UnpackedFloat.normalize .binary64 k e zeroSign))) (k * 2 ^ e) := by
  unfold UnpackedFloat.normalize
  rcases lt_trichotomy k 0 with hk | rfl | hk
  · rw [compare_lt_iff_lt.2 hk]
    have hvalue : (k : ℚ) * 2 ^ e = signed .negative ((-k).toNat * 2 ^ e) := by
      have hcast : (((-k).toNat : ℤ) : ℚ) = -k := by
        rw [Int.toNat_of_nonneg (by omega), Int.cast_neg]
      rw [Int.cast_natCast] at hcast
      rw [hcast, signed]
      ring
    rw [hvalue]
    exact gives_nearest .negative (by omega) e
  · rw [Int.cast_zero, zero_mul]
    exact gives_zero zeroSign
  · rw [compare_gt_iff_gt.2 hk]
    have hvalue : (k : ℚ) * 2 ^ e = signed .positive (k.toNat * 2 ^ e) := by
      have hcast : ((k.toNat : ℤ) : ℚ) = k := by
        rw [Int.toNat_of_nonneg hk.le]
      rw [Int.cast_natCast] at hcast
      rw [hcast, signed]
    rw [hvalue]
    exact gives_nearest .positive (by omega) e

/-! ## Operations -/

theorem add_eq (x y : Float) :
    x + y = .ofModel (.pack (.add .binary64 x.toModel.unpack y.toModel.unpack)) := rfl

theorem sub_eq (x y : Float) :
    x - y = .ofModel (.pack (.sub .binary64 x.toModel.unpack y.toModel.unpack)) := rfl

theorem mul_eq (x y : Float) :
    x * y = .ofModel (.pack (.mul .binary64 x.toModel.unpack y.toModel.unpack)) := rfl

theorem div_eq (x y : Float) :
    x / y = .ofModel (.pack (.div .binary64 x.toModel.unpack y.toModel.unpack)) := rfl

theorem decreaseExponent_of_le (h : f ≤ e) :
    (sign.apply (decreaseExponent m e f).1 : ℚ) * 2 ^ f = sign.apply m * 2 ^ e := by
  obtain ⟨shift, rfl⟩ := Int.le.dest h
  have hshift : (f + shift - f).toNat = shift := by omega
  have hvalue := apply_shifted sign m shift (f + shift)
  rw [Int.add_sub_cancel] at hvalue
  unfold decreaseExponent
  simp only [hshift, Nat.shiftLeft_eq]
  exact hvalue

theorem gives_add (hx : value? x = some p) (hy : value? y = some q) : Gives (x + y) (p + q) := by
  rw [add_eq]
  rcases unpack_of_value? hx with ⟨s, hux, rfl⟩ | ⟨s, m, e, hm, hux, hcm, rfl⟩ <;>
    rcases unpack_of_value? hy with ⟨t, huy, rfl⟩ | ⟨t, n, f, hn, huy, hcn, rfl⟩ <;>
    rw [hux, huy]
  · rw [add_zero]
    cases s <;> cases t <;> exact gives_zero _
  · rw [zero_add]
    exact gives_of_value? (value?_pack_finite hcn)
  · rw [add_zero]
    exact gives_of_value? (value?_pack_finite hcm)
  · rw [← decreaseExponent_of_le (min_le_left e f), ← decreaseExponent_of_le (min_le_right e f),
      ← add_mul, ← Int.cast_add]
    exact gives_normalize _ _ _

theorem gives_sub (hx : value? x = some p) (hy : value? y = some q) : Gives (x - y) (p - q) := by
  rw [sub_eq]
  rcases unpack_of_value? hx with ⟨s, hux, rfl⟩ | ⟨s, m, e, hm, hux, hcm, rfl⟩ <;>
    rcases unpack_of_value? hy with ⟨t, huy, rfl⟩ | ⟨t, n, f, hn, huy, hcn, rfl⟩ <;>
    rw [hux, huy]
  · rw [sub_zero]
    cases s <;> cases t <;> exact gives_zero _
  · have hneg : ((-t).apply n : ℚ) * 2 ^ f = 0 - t.apply n * 2 ^ f := by
      cases t with
      | positive =>
          change (Sign.negative.apply n : ℚ) * 2 ^ f = _
          rw [apply_negative, apply_positive]
          ring
      | negative =>
          change (Sign.positive.apply n : ℚ) * 2 ^ f = _
          rw [apply_negative, apply_positive]
          ring
    rw [← hneg]
    exact gives_of_value? (value?_pack_finite hcn)
  · rw [sub_zero]
    exact gives_of_value? (value?_pack_finite hcm)
  · rw [← decreaseExponent_of_le (min_le_left e f), ← decreaseExponent_of_le (min_le_right e f),
      ← sub_mul, ← Int.cast_sub]
    exact gives_normalize _ _ _

theorem signed_mul_signed (s t : Sign) (p q : ℚ) :
    signed s p * signed t q = signed (s * t) (p * q) := by
  cases s <;> cases t
  · exact neg_mul_neg p q
  · exact neg_mul p q
  · exact mul_neg p q
  · rfl

/-- A product has 53 digits already, or lies at the least unit or below. -/
theorem product_exponent_le (hm : 0 < m) (hn : 0 < n) (hcm : Canonical m e)
    (hcn : Canonical n f) :
    e + f ≤ Format.binary64.targetExponent (totalExponent (m * n) (e + f)) := by
  rw [targetExponent_of_mantissa]
  have hlow : 2 ^ 52 ≤ m * n → 52 ≤ (m * n).log2 := (Nat.le_log2 (Nat.mul_pos hm hn).ne').2
  rcases hcm.normal with hnormal | rfl
  · have := hlow (hnormal.trans (Nat.le_mul_of_pos_right m hn))
    omega
  rcases hcn.normal with hnormal | rfl
  · have := hlow (hnormal.trans (Nat.le_mul_of_pos_left n hm))
    omega
  · omega

theorem gives_product (s t : Sign) (hm : 0 < m) (hn : 0 < n)
    (hle : e + f ≤ Format.binary64.targetExponent (totalExponent (m * n) (e + f))) :
    Gives (.ofModel (.pack (.mul .binary64 (.finite s m e hm) (.finite t n f hn))))
      (signed s (m * 2 ^ e) * signed t (n * 2 ^ f)) := by
  have hvalue : signed s (m * 2 ^ e) * signed t (n * 2 ^ f) =
      signed (s * t) ((m * n : ℕ) * 2 ^ (e + f)) := by
    rw [signed_mul_signed, zpow_add₀ two_ne_zero]
    congr 1
    push_cast
    ring
  rw [hvalue]
  exact gives_roundWithAccuracy _ (describes_exact _) hle

theorem gives_mul (hx : value? x = some p) (hy : value? y = some q) : Gives (x * y) (p * q) := by
  rw [mul_eq]
  rcases unpack_of_value? hx with ⟨s, hux, rfl⟩ | ⟨s, m, e, hm, hux, hcm, rfl⟩ <;>
    rcases unpack_of_value? hy with ⟨t, huy, rfl⟩ | ⟨t, n, f, hn, huy, hcn, rfl⟩ <;>
    rw [hux, huy]
  · rw [mul_zero]
    exact gives_zero _
  · rw [zero_mul]
    exact gives_zero _
  · rw [mul_zero]
    exact gives_zero _
  · rw [apply_eq_signed, apply_eq_signed, signed_mul s, signed_mul t]
    exact gives_product s t hm hn (product_exponent_le hm hn hcm hcn)

theorem signed_div_signed (s t : Sign) (p q : ℚ) :
    signed s p / signed t q = signed (s / t) (p / q) := by
  cases s <;> cases t
  · exact neg_div_neg_eq p q
  · exact neg_div q p
  · exact div_neg p
  · rfl

/-- The dividend is shifted until the quotient has 53 digits, or to the least unit. -/
theorem quotient_exponent_le {shift : ℕ} {unit : ℤ} (hm : 0 < m) (hn : 0 < n)
    (hunit : unit + shift = e - f)
    (hle : unit ≤ Format.binary64.targetExponent (totalExponent m e - totalExponent n f)) :
    unit ≤ Format.binary64.targetExponent (totalExponent (m * 2 ^ shift / n) unit) := by
  rw [targetExponent_binary64] at hle
  simp only [totalExponent] at hle
  rw [targetExponent_of_mantissa]
  rcases le_or_gt unit (-1074) with hleast | hgreat
  · omega
  have hdigits : 53 + n.log2 ≤ m.log2 + shift := by omega
  have hquotient : 2 ^ 52 ≤ m * 2 ^ shift / n := by
    rw [Nat.le_div_iff_mul_le hn]
    calc 2 ^ 52 * n ≤ 2 ^ 52 * 2 ^ (n.log2 + 1) :=
          Nat.mul_le_mul_left _ Nat.lt_log2_self.le
      _ = 2 ^ (53 + n.log2) := by
          rw [← Nat.pow_add]
          congr 1
          omega
      _ ≤ 2 ^ (m.log2 + shift) := Nat.pow_le_pow_right two_pos hdigits
      _ = 2 ^ m.log2 * 2 ^ shift := Nat.pow_add ..
      _ ≤ m * 2 ^ shift := Nat.mul_le_mul_right _ (Nat.log2_self_le hm.ne')
  have hlog : 52 ≤ (m * 2 ^ shift / n).log2 :=
    (Nat.le_log2 (Nat.pos_of_ne_zero fun hzero => by omega).ne').2 hquotient
  omega

theorem gives_div (hx : value? x = some p) (hy : value? y = some q) (hq : q ≠ 0) :
    Gives (x / y) (p / q) := by
  rw [div_eq]
  rcases unpack_of_value? hy with ⟨t, huy, rfl⟩ | ⟨t, n, f, hn, huy, hcn, rfl⟩
  · exact absurd rfl hq
  rcases unpack_of_value? hx with ⟨s, hux, rfl⟩ | ⟨s, m, e, hm, hux, hcm, rfl⟩ <;>
    rw [hux, huy]
  · rw [zero_div]
    exact gives_zero _
  · obtain ⟨unit, hunit⟩ : ∃ unit, min (e - f)
        (Format.binary64.targetExponent (totalExponent m e - totalExponent n f)) = unit := ⟨_, rfl⟩
    obtain ⟨shift, hshift⟩ := Int.le.dest (hunit ▸ min_le_left _ _ : unit ≤ e - f)
    have hcore : divCore .binary64 m e n f =
        (m * 2 ^ shift / n, unit, accuracyOfFraction (m * 2 ^ shift % n) n) := by
      have hamount : (e - f - unit).toNat = shift := by omega
      unfold divCore
      simp only [hunit, hamount, Nat.shiftLeft_eq]
    have hdiv : UnpackedFloat.div .binary64 (.finite s m e hm) (.finite t n f hn) =
        roundWithAccuracy .binary64 (s / t) (m * 2 ^ shift / n) unit
          (accuracyOfFraction (m * 2 ^ shift % n) n) := by
      simp only [UnpackedFloat.div, hcore]
    have hn' : (n : ℚ) ≠ 0 := by exact_mod_cast hn.ne'
    have hdescribed : ((m * 2 ^ shift / n : ℕ) : ℚ) + (m * 2 ^ shift % n : ℕ) / n =
        (m * 2 ^ shift : ℕ) / n := by
      rw [eq_div_iff hn', add_mul, div_mul_cancel₀ _ hn']
      exact_mod_cast Nat.div_add_mod' (m * 2 ^ shift) n
    have hvalue : (s.apply m : ℚ) * 2 ^ e / (t.apply n * 2 ^ f) =
        signed (s / t) ((((m * 2 ^ shift / n : ℕ) : ℚ) + (m * 2 ^ shift % n : ℕ) / n) *
          2 ^ unit) := by
      have hpowers : (2 : ℚ) ^ e = 2 ^ shift * 2 ^ unit * 2 ^ f := by
        rw [← two_zpow_add, hshift, ← zpow_add₀ two_ne_zero, sub_add_cancel]
      rw [apply_eq_signed, apply_eq_signed, signed_mul s, signed_mul t, signed_div_signed,
        hdescribed, hpowers]
      congr 1
      have hf := (two_zpow_pos f).ne'
      push_cast
      field_simp
    rw [hdiv, hvalue]
    exact gives_roundWithAccuracy _ (describes_fraction _ (Nat.mod_lt _ hn))
      (quotient_exponent_le hm hn hshift (hunit ▸ min_le_right _ _))

/-! ## Range and order -/

theorem Holds.value_of_lt (h : Holds x r) (hrange : |r| < limit) : value? x = some r := by
  have hbounds := abs_lt.1 hrange
  cases h with
  | value _ hx => exact hx
  | above habove => exact absurd hbounds.2 habove.not_gt
  | below hbelow => exact absurd hbounds.1 hbelow.not_gt

theorem Holds.eq_infinity (h : Holds x r) (hrange : limit ≤ r) : x = infinity := by
  cases h with
  | value hlimit => exact absurd hrange (lt_of_abs_lt hlimit).not_ge
  | above _ hx => exact hx
  | below hbelow => linarith [limit_pos]

theorem Gives.exists_value (h : Gives x q) (hq : |q| < overflow) :
    ∃ r, value? x = some r ∧ Rounds q r := by
  rcases h with ⟨r, hr, hholds⟩
  exact ⟨r, hholds.value_of_lt (hr.abs_lt_limit_iff.2 hq), hr⟩

theorem Gives.eq_infinity (h : Gives x q) (hq : overflow ≤ q) : x = infinity := by
  rcases h with ⟨r, hr, hholds⟩
  exact hholds.eq_infinity (hr.limit_le_iff.2 hq)

/-- A double is what its own number is rounded to. -/
theorem Gives.eq_value (h : Gives x q) (hy : value? y = some q) : value? x = some q := by
  rcases h with ⟨r, hr, hholds⟩
  obtain rfl := hr.unique (.of_value? hy)
  exact hholds.value_of_lt (abs_lt_of_value? hy)

theorem le_iff_compare :
    x ≤ y ↔ (x.toModel.unpack.compare y.toModel.unpack).any (·.isLE) = true :=
  decide_eq_true_iff

theorem le_iff_value (hx : value? x = some p) (hy : value? y = some q) : x ≤ y ↔ p ≤ q := by
  rcases compares_value hx hy with ⟨order, hcompare, hpq⟩
  rw [le_iff_compare, hcompare, Option.any_some, Ordering.isLE_iff_ne_gt]
  exact hpq.ne_gt

theorem le_infinity (hx : value? x = some p) : x ≤ infinity := by
  rw [le_iff_compare, show infinity.toModel.unpack = .infinity .positive from rfl]
  rcases unpack_of_value? hx with ⟨_, hux, -⟩ | ⟨_, _, _, _, hux, -⟩ <;> rw [hux] <;> rfl

theorem neg_infinity_le (hx : value? x = some p) : -infinity ≤ x := by
  rw [le_iff_compare, show (-infinity).toModel.unpack = .infinity .negative from rfl]
  rcases unpack_of_value? hx with ⟨_, hux, -⟩ | ⟨_, _, _, _, hux, -⟩ <;> rw [hux] <;> rfl

theorem Gives.le_infinity (h : Gives x q) : x ≤ infinity := by
  rcases h with ⟨r, -, hholds⟩
  cases hholds with
  | value _ hx => exact Binary64.le_infinity hx
  | above _ hx =>
      rw [hx]
      decide
  | below _ hx =>
      rw [hx]
      decide

/-- Results are in the order of the exact numbers. -/
theorem Gives.le (hx : Gives x p) (hy : Gives y q) (h : p ≤ q) : x ≤ y := by
  rcases hx with ⟨r, hr, hx⟩
  rcases hy with ⟨s, hs, hy⟩
  have hrs := hr.mono hs h
  cases hy with
  | above _ hy =>
      rw [hy]
      exact Gives.le_infinity ⟨r, hr, hx⟩
  | value hyrange hy =>
      cases hx with
      | value _ hx => exact (le_iff_value hx hy).2 hrs
      | above hxrange => exact absurd (hxrange.trans hrs) (lt_of_abs_lt hyrange).not_ge
      | below _ hx =>
          rw [hx]
          exact neg_infinity_le hy
  | below hyrange hy =>
      cases hx with
      | value hxrange => exact absurd (hrs.trans hyrange) (abs_lt.1 hxrange).1.not_ge
      | above hxrange => linarith [limit_pos]
      | below _ hx =>
          rw [hx, hy]
          decide

/-! ## Infinite operands -/

theorem eq_of_unpack_infinity (hx : x.toModel.unpack = .infinity sign)
    (hy : y.toModel.unpack = .infinity sign) : x = y := by
  have hbeq : (x == y) = true := by
    rw [beq_iff_compare, hx, hy]
    cases sign <;> rfl
  rcases (Float.beq_iff_ne_nan_and_eq.1 hbeq).2.2 with heq | ⟨rfl, -⟩ | ⟨rfl, -⟩
  · exact heq
  · cases hx
  · cases hx

theorem eq_infinity_of_isInf (h : x.isInf = true) : x = infinity ∨ x = -infinity := by
  unfold Float.isInf Float.Model.isInf at h
  cases hx : x.toModel.unpack with
  | infinity sign =>
      cases sign with
      | positive => exact .inl (eq_of_unpack_infinity hx rfl)
      | negative => exact .inr (eq_of_unpack_infinity hx rfl)
  | notANumber | zero | finite =>
      rw [hx] at h
      cases h

/-- A double is NaN or infinite or stands for a number. -/
theorem double_cases (x : Float) :
    x.isNaN = true ∨ x = infinity ∨ x = -infinity ∨ ∃ p, value? x = some p := by
  by_cases hnan : x.isNaN = true
  · exact .inl hnan
  by_cases hinf : x.isInf = true
  · obtain h | h := eq_infinity_of_isInf hinf
    · exact .inr (.inl h)
    · exact .inr (.inr (.inl h))
  · have hvalue := exists_value? (Bool.eq_false_iff.2 hnan) (Bool.eq_false_iff.2 hinf)
    exact .inr (.inr (.inr hvalue))

theorem unpack_of_pos (hx : value? x = some p) (hp : 0 < p) :
    ∃ m e hm, x.toModel.unpack = .finite .positive m e hm := by
  rcases unpack_of_value? hx with ⟨_, _, rfl⟩ | ⟨sign, m, e, hm, hux, -, rfl⟩
  · exact absurd hp (lt_irrefl 0)
  · cases sign with
    | positive => exact ⟨m, e, hm, hux⟩
    | negative => exact absurd hp (neg_magnitude_neg hm).not_gt

theorem infinity_div (hx : value? x = some p) (hp : 0 < p) : infinity / x = infinity := by
  rcases unpack_of_pos hx hp with ⟨_, _, _, hux⟩
  rw [div_eq, hux]
  rfl

theorem mul_infinity (hx : value? x = some p) (hp : 0 < p) : x * infinity = infinity := by
  rcases unpack_of_pos hx hp with ⟨_, _, _, hux⟩
  rw [mul_eq, hux]
  rfl

theorem zero_mul_infinity (hx : value? x = some 0) : x * infinity = nan := by
  rcases unpack_of_beq_zero ((beq_iff_value (y := 0) hx rfl).2 rfl) with ⟨sign, hux⟩
  rw [mul_eq, hux]
  rfl

theorem add_infinity (hx : value? x = some p) : x + infinity = infinity := by
  rw [add_eq]
  rcases unpack_of_value? hx with ⟨_, hux, -⟩ | ⟨_, _, _, _, hux, -⟩ <;> rw [hux] <;> rfl

theorem add_nan (hx : value? x = some p) : x + nan = nan := by
  rw [add_eq]
  rcases unpack_of_value? hx with ⟨_, hux, -⟩ | ⟨_, _, _, _, hux, -⟩ <;> rw [hux] <;> rfl

theorem le_add_of_gives {u : Float} (hx : value? x = some p) (hu : Gives u q) (hq : 0 ≤ q) :
    x ≤ x + u := by
  rcases hu with ⟨s, hs, hu⟩
  have hspos := hs.nonneg hq
  cases hu with
  | below hurange => linarith [limit_pos]
  | value _ hu => exact (gives_of_value? hx).le (gives_add hx hu) (le_add_of_nonneg_right hspos)
  | above _ hu =>
      rw [hu, add_infinity hx]
      exact le_infinity hx

/-- Adding a number that is not negative keeps the order, also where the sum is infinite. -/
theorem add_le_add_of_gives {u v : Float} (hx : value? x = some p) (hu : Gives u q)
    (hv : Gives v r) (hq : 0 ≤ q) (hqr : q ≤ r) : x + u ≤ x + v := by
  rcases hu with ⟨s, hs, hu⟩
  rcases hv with ⟨t, ht, hv⟩
  have hspos := hs.nonneg hq
  have hst := hs.mono ht hqr
  cases hu with
  | below hurange => linarith [limit_pos]
  | value hurange hu =>
      cases hv with
      | below hvrange => linarith [limit_pos]
      | value _ hv => exact (gives_add hx hu).le (gives_add hx hv) (add_le_add_right hst p)
      | above _ hv =>
          rw [hv, add_infinity hx]
          exact (gives_add hx hu).le_infinity
  | above hurange hu =>
      rw [hu, hv.eq_infinity (hurange.trans hst), add_infinity hx]
      decide

/-! ## Whole numbers -/

theorem value?_whole (hn : n < 2 ^ 53) : value? (nearest .positive n 0) = some (n : ℚ) := by
  rw [value?_nearest hn (by decide) (by decide), apply_positive, zpow_zero, mul_one]

/-- A whole number below `2 ^ 53` is multiplied by one on its way, and a greater one by `10 ^ 0`. -/
theorem ofNat_of_lt (hn : n < 2 ^ 53) :
    Float.ofNat n = n.toUInt64.toFloat * Float.ofBits 0x3FF0000000000000 := by
  change Float.ofScientific n false 0 = _
  unfold Float.ofScientific
  rw [dif_pos ⟨hn, by decide⟩]
  rfl

theorem ofNat_of_ge (hn : 2 ^ 53 ≤ n) :
    Float.ofNat n = .ofModel (.pack (.mul .binary64
      (.finite .positive (n <<< 53) (-53) (Nat.shiftLeft_pos_iff.2 (by omega)))
      (.finite .positive (10 ^ 0) 0 (Nat.pow_pos (by decide))))) := by
  have hscientific : UnpackedFloat.ofScientific .binary64 n 0 = .mul .binary64
      (.finite .positive (n <<< 53) (-53) (Nat.shiftLeft_pos_iff.2 (by omega)))
      (.finite .positive (10 ^ 0) 0 (Nat.pow_pos (by decide))) := by
    unfold UnpackedFloat.ofScientific
    rw [dif_neg (by omega), if_neg (by decide), if_neg, if_pos le_rfl]
    · rfl
    · change ¬ (0 : ℤ) < -(2 ^ 11 + n.log2)
      omega
  change Float.ofScientific n false 0 = _
  unfold Float.ofScientific
  rw [dif_neg (fun h => absurd h.1 (by omega)), ← hscientific]
  rfl

/-- A whole number is rounded to a double. -/
theorem gives_ofNat (n : ℕ) : Gives (Float.ofNat n) n := by
  rcases lt_or_ge n (2 ^ 53) with hn | hn
  · have hcast : n.toUInt64.toNat = n := Nat.mod_eq_of_lt (by omega)
    have hword : n.toUInt64.toFloat =
        .ofModel (.pack (UnpackedFloat.normalize .binary64 n.toUInt64.toNat 0 .positive)) := rfl
    have hgives := gives_normalize n 0 .positive
    rw [hcast] at hword
    rw [zpow_zero, mul_one, Int.cast_natCast, ← hword] at hgives
    have hone : Binary64.value? (Float.ofBits 0x3FF0000000000000) = some 1 := by decide +kernel
    have hproduct := gives_mul (hgives.eq_value (value?_whole hn)) hone
    rw [mul_one] at hproduct
    rw [ofNat_of_lt hn]
    exact hproduct
  · have hvalue : (n : ℚ) = signed .positive ((n <<< 53 : ℕ) * 2 ^ (-53 : ℤ)) *
        signed .positive ((10 ^ 0 : ℕ) * 2 ^ (0 : ℤ)) := by
      rw [Nat.shiftLeft_eq, signed, signed]
      push_cast
      norm_num
      ring
    have hlog : (n <<< 53 * 10 ^ 0).log2 = n.log2 + 53 := by
      rw [pow_zero, mul_one, Nat.shiftLeft_eq, log2_mul_two_pow (by omega)]
    rw [ofNat_of_ge hn, hvalue]
    refine gives_product .positive .positive _ _ ?_
    rw [targetExponent_of_mantissa, hlog]
    omega

theorem value?_ofNat (hn : n < 2 ^ 53) : value? (Float.ofNat n) = some (n : ℚ) :=
  (gives_ofNat n).eq_value (value?_whole hn)

/-- The number of a 64-bit word is rounded within the range. -/
theorem exists_value_ofNat (hn : n < 2 ^ 64) :
    ∃ r, value? (Float.ofNat n) = some r ∧ Rounds n r := by
  refine (gives_ofNat n).exists_value ?_
  rw [abs_of_nonneg (Nat.cast_nonneg n)]
  calc (n : ℚ) < 2 ^ (64 : ℤ) := by exact_mod_cast hn
    _ < overflow := two_zpow_lt_overflow (by decide)

end Binary64

end Formula
