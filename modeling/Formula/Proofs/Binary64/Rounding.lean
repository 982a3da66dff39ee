import Formula.Proofs.Binary64.Value

/-!
# Rounding to 53 digits

A result of arithmetic is the exact number rounded to 53 binary digits, a tie going to
the even neighbour. Rounding keeps the order of numbers and the doubles themselves, and
misses a number by at most half a unit of its last digit.
-/

namespace Formula

namespace Binary64

/-- The whole number nearest to `v`, and of two nearest ones the even one. -/
structure IsNearestEven (v : ℚ) (n : ℤ) : Prop where
  near : |v - n| ≤ 1 / 2
  even : |v - n| = 1 / 2 → Even n

namespace IsNearestEven

variable {v w : ℚ} {m n : ℤ}

theorem intCast (n : ℤ) : IsNearestEven n n := by
  have hself : |(n : ℚ) - n| = 0 := by rw [sub_self, abs_zero]
  exact ⟨by rw [hself]; norm_num, fun h => absurd (hself.symm.trans h) (by norm_num)⟩

theorem neg (h : IsNearestEven v n) : IsNearestEven (-v) (-n) := by
  have hdistance : |-v - (-n : ℤ)| = |v - n| := by
    rw [Int.cast_neg, neg_sub_neg, abs_sub_comm]
  exact ⟨hdistance ▸ h.near, fun htie => (h.even (hdistance ▸ htie)).neg⟩

theorem mono (hv : IsNearestEven v m) (hw : IsNearestEven w n) (h : v ≤ w) : m ≤ n := by
  by_contra hlt
  have hstep : (n : ℚ) + 1 ≤ m := by exact_mod_cast not_le.1 hlt
  have hm := abs_le.1 hv.near
  have hn := abs_le.1 hw.near
  -- both are ties, between two neighbours that cannot both be even
  have hmeven : Even m := hv.even (by rw [abs_eq (by norm_num)]; right; linarith)
  have hneven : Even n := hw.even (by rw [abs_eq (by norm_num)]; left; linarith)
  have hnext : m = n + 1 := by
    have : (m : ℚ) = n + 1 := by linarith
    exact_mod_cast this
  exact (Int.even_add_one.1 (hnext ▸ hmeven)) hneven

end IsNearestEven

/-- The number `q` rounded to `n` units of `2 ^ unit`, the units in which it has 53 digits.
Below the normal range the unit is the least one. -/
structure RoundsAt (q : ℚ) (unit n : ℤ) : Prop where
  least_le : -1074 ≤ unit
  lt_above : |q| < 2 ^ (unit + 53)
  normal : 2 ^ (unit + 52) ≤ |q| ∨ unit = -1074
  nearest : IsNearestEven (q / 2 ^ unit) n

/-- The number `q` rounded to 53 digits is `r`, whatever the magnitude. -/
def Rounds (q r : ℚ) : Prop :=
  ∃ unit n : ℤ, RoundsAt q unit n ∧ r = n * 2 ^ unit

theorem two_zpow_pos (e : ℤ) : (0 : ℚ) < 2 ^ e :=
  zpow_pos two_pos e

theorem two_zpow_add (e : ℤ) (k : ℕ) : (2 : ℚ) ^ (e + k) = 2 ^ k * 2 ^ e := by
  rw [zpow_add₀ two_ne_zero, zpow_natCast, mul_comm]

namespace RoundsAt

variable {p q : ℚ} {e f m n : ℤ}

theorem neg (h : RoundsAt q e n) : RoundsAt (-q) e (-n) := by
  refine ⟨h.least_le, ?_, ?_, ?_⟩
  · rw [abs_neg]
    exact h.lt_above
  · rw [abs_neg]
    exact h.normal
  · rw [neg_div]
    exact h.nearest.neg

/-- A smaller number has no greater unit. -/
theorem unit_le (hp : RoundsAt p e m) (hq : RoundsAt q f n) (h : |p| ≤ |q|) : e ≤ f := by
  rcases hp.normal with hnormal | hleast
  · have hpow : (2 : ℚ) ^ (e + 52) < 2 ^ (f + 53) := (hnormal.trans h).trans_lt hq.lt_above
    have := (zpow_lt_zpow_iff_right₀ one_lt_two).1 hpow
    omega
  · exact hleast.trans_le hq.least_le

theorem le_above (h : RoundsAt q e n) : n ≤ 2 ^ 53 := by
  refine h.nearest.mono (.intCast (2 ^ 53)) ?_
  rw [div_le_iff₀ (two_zpow_pos e)]
  calc q ≤ |q| := le_abs_self q
    _ ≤ 2 ^ (e + (53 : ℕ)) := h.lt_above.le
    _ = ((2 ^ 53 : ℤ) : ℚ) * 2 ^ e := by
        rw [two_zpow_add]
        push_cast
        rfl

theorem le_of_normal (h : RoundsAt q e n) (hnormal : 2 ^ (e + 52) ≤ q) : 2 ^ 52 ≤ n := by
  refine IsNearestEven.mono (.intCast (2 ^ 52)) h.nearest ?_
  rw [le_div_iff₀ (two_zpow_pos e)]
  calc ((2 ^ 52 : ℤ) : ℚ) * 2 ^ e = 2 ^ (e + (52 : ℕ)) := by
        rw [two_zpow_add]
        push_cast
        rfl
    _ ≤ q := hnormal

theorem nonneg (h : RoundsAt q e n) (hq : 0 ≤ q) : 0 ≤ n := by
  refine IsNearestEven.mono (.intCast 0) h.nearest ?_
  rw [Int.cast_zero]
  exact div_nonneg hq (two_zpow_pos e).le

theorem abs_sub_le (h : RoundsAt q e n) : |(n : ℚ) * 2 ^ e - q| ≤ 2 ^ e / 2 := by
  have hunit := two_zpow_pos e
  have hscaled : (n : ℚ) * 2 ^ e - q = -((q / 2 ^ e - n) * 2 ^ e) := by
    field_simp
    ring
  rw [hscaled, abs_neg, abs_mul, abs_of_pos hunit]
  calc |q / 2 ^ e - n| * 2 ^ e ≤ 1 / 2 * 2 ^ e :=
        mul_le_mul_of_nonneg_right h.nearest.near hunit.le
    _ = 2 ^ e / 2 := by ring

/-- Among the numbers that are not negative, a greater one is rounded to a greater one. -/
theorem mono_of_nonneg (hp : RoundsAt p e m) (hq : RoundsAt q f n) (hpos : 0 ≤ p)
    (h : p ≤ q) : (m : ℚ) * 2 ^ e ≤ n * 2 ^ f := by
  have hunit : e ≤ f := hp.unit_le hq (by rwa [abs_of_nonneg hpos, abs_of_nonneg (hpos.trans h)])
  rcases hunit.eq_or_lt with rfl | hlt
  · have hmn : m ≤ n :=
      hp.nearest.mono hq.nearest (div_le_div_of_nonneg_right h (two_zpow_pos e).le)
    exact mul_le_mul_of_nonneg_right (Int.cast_le.2 hmn) (two_zpow_pos e).le
  · -- a power of two lies between: above all of the lower units, below all of the upper ones
    have hnormal : 2 ^ (f + 52) ≤ q := by
      rw [← abs_of_nonneg (hpos.trans h)]
      exact hq.normal.resolve_right (by have := hp.least_le; omega)
    have hm : (m : ℚ) ≤ 2 ^ 53 := by exact_mod_cast hp.le_above
    have hn : (2 : ℚ) ^ 52 ≤ n := by exact_mod_cast hq.le_of_normal hnormal
    calc (m : ℚ) * 2 ^ e ≤ 2 ^ 53 * 2 ^ e := mul_le_mul_of_nonneg_right hm (two_zpow_pos e).le
      _ = 2 ^ (e + (53 : ℕ)) := (two_zpow_add e 53).symm
      _ ≤ 2 ^ (f + (52 : ℕ)) := zpow_le_zpow_right₀ one_le_two (by omega)
      _ = 2 ^ 52 * 2 ^ f := two_zpow_add f 52
      _ ≤ n * 2 ^ f := mul_le_mul_of_nonneg_right hn (two_zpow_pos f).le

end RoundsAt

namespace Rounds

variable {p q r s : ℚ}

theorem neg (h : Rounds q r) : Rounds (-q) (-r) := by
  rcases h with ⟨unit, n, hrounds, rfl⟩
  exact ⟨unit, -n, hrounds.neg, by push_cast; ring⟩

theorem nonneg (h : Rounds q r) (hq : 0 ≤ q) : 0 ≤ r := by
  rcases h with ⟨unit, n, hrounds, rfl⟩
  exact mul_nonneg (Int.cast_nonneg (hrounds.nonneg hq)) (two_zpow_pos unit).le

theorem mono_of_nonneg (hp : Rounds p r) (hq : Rounds q s) (hpos : 0 ≤ p) (h : p ≤ q) :
    r ≤ s := by
  rcases hp with ⟨e, m, hp, rfl⟩
  rcases hq with ⟨f, n, hq, rfl⟩
  exact hp.mono_of_nonneg hq hpos h

/-- Rounding keeps the order of numbers. -/
theorem mono (hp : Rounds p r) (hq : Rounds q s) (h : p ≤ q) : r ≤ s := by
  rcases le_total 0 p with hpos | hneg
  · exact hp.mono_of_nonneg hq hpos h
  rcases le_total 0 q with hpos' | hneg'
  · have hr : 0 ≤ -r := hp.neg.nonneg (neg_nonneg.2 hneg)
    have hs : 0 ≤ s := hq.nonneg hpos'
    linarith
  · exact neg_le_neg_iff.1 (hq.neg.mono_of_nonneg hp.neg (neg_nonneg.2 hneg') (neg_le_neg h))

/-- A number of at most 53 digits is not changed. -/
theorem of_fits {m : ℤ} {e : ℤ} (hleast : -1074 ≤ e) (hm : |m| < 2 ^ 53)
    (hnormal : 2 ^ 52 ≤ |m| ∨ e = -1074) : Rounds (m * 2 ^ e) (m * 2 ^ e) := by
  have habs : |(m : ℚ) * 2 ^ e| = (|m| : ℤ) * 2 ^ e := by
    rw [abs_mul, abs_of_pos (two_zpow_pos e), Int.cast_abs]
  refine ⟨e, m, ⟨hleast, ?_, ?_, ?_⟩, rfl⟩
  · rw [habs]
    refine lt_of_lt_of_eq (mul_lt_mul_of_pos_right ?_ (two_zpow_pos e)) (two_zpow_add e 53).symm
    exact_mod_cast hm
  · refine hnormal.imp_left fun hlow => ?_
    rw [habs]
    refine le_of_eq_of_le (two_zpow_add e 52)
      (mul_le_mul_of_nonneg_right ?_ (two_zpow_pos e).le)
    exact_mod_cast hlow
  · rw [mul_div_cancel_right₀ _ (two_zpow_pos e).ne']
    exact .intCast m

theorem of_value? {x : Float} (h : value? x = some p) : Rounds p p := by
  rcases unpack_of_value? h with ⟨_, _, rfl⟩ | ⟨sign, m, e, _, _, hcanonical, rfl⟩
  · simpa using of_fits (m := 0) (e := -1074) le_rfl (by norm_num) (.inr rfl)
  · have habs : |sign.apply m| = (m : ℤ) := by
      cases sign with
      | positive => exact abs_of_nonneg (Int.natCast_nonneg m)
      | negative => exact (abs_neg _).trans (abs_of_nonneg (Int.natCast_nonneg m))
    refine of_fits hcanonical.least_le ?_ (hcanonical.normal.imp_left fun hlow => ?_)
    · rw [habs]
      exact_mod_cast hcanonical.mantissa_lt
    · rw [habs]
      exact_mod_cast hlow

/-- The powers of two down to the least of the normal range are not changed. -/
theorem two_zpow {e : ℤ} (hleast : -1022 ≤ e) : Rounds (2 ^ e) (2 ^ e) := by
  have hpower : (2 : ℚ) ^ e = ((2 ^ 52 : ℤ) : ℚ) * 2 ^ (e - 52) := by
    have hsplit := two_zpow_add (e - 52) 52
    rw [Nat.cast_ofNat, sub_add_cancel] at hsplit
    rw [hsplit]
    push_cast
    rfl
  rw [hpower]
  exact of_fits (by omega) (by decide) (.inl (by decide))

theorem one_le (h : Rounds q r) (hq : 1 ≤ q) : 1 ≤ r :=
  Rounds.mono (Rounds.two_zpow (by decide : -1022 ≤ (0 : ℤ))) h hq

/-- A number is rounded in one way only. -/
theorem unique (hr : Rounds q r) (hs : Rounds q s) : r = s :=
  le_antisymm (hr.mono hs le_rfl) (hs.mono hr le_rfl)

/-- Rounding misses a number by half a unit of its last digit, or of the least unit. -/
theorem abs_sub_le (h : Rounds q r) : |r - q| ≤ |q| / 2 ^ 53 + 2 ^ (-1075 : ℤ) := by
  rcases h with ⟨unit, n, hrounds, rfl⟩
  have hhalf := hrounds.abs_sub_le
  have hleast := two_zpow_pos (-1075)
  rcases hrounds.normal with hnormal | rfl
  · have hlast : (2 : ℚ) ^ unit / 2 ≤ |q| / 2 ^ 53 := by
      rw [show unit + 52 = unit + (52 : ℕ) from rfl, two_zpow_add] at hnormal
      rw [div_le_div_iff₀ two_pos (by positivity)]
      linarith
    linarith
  · have hleast' : (2 : ℚ) ^ (-1074 : ℤ) / 2 = 2 ^ (-1075 : ℤ) := by
      rw [show (-1074 : ℤ) = -1075 + (1 : ℕ) from rfl, two_zpow_add]
      ring
    have : 0 ≤ |q| / 2 ^ 53 := by positivity
    linarith

end Rounds

/-! ## The range of the doubles -/

/-- The least power of two above all doubles. -/
def limit : ℚ :=
  2 ^ (1024 : ℤ)

/-- Half a unit above the greatest double, where rounding reaches the limit. -/
def overflow : ℚ :=
  (2 ^ 53 - 1 / 2) * 2 ^ (971 : ℤ)

theorem limit_eq : limit = 2 ^ 53 * 2 ^ (971 : ℤ) :=
  two_zpow_add 971 53

theorem limit_pos : 0 < limit :=
  two_zpow_pos 1024

theorem overflow_pos : 0 < overflow :=
  mul_pos (by norm_num) (two_zpow_pos 971)

theorem overflow_lt_limit : overflow < limit := by
  rw [overflow, limit_eq]
  exact mul_lt_mul_of_pos_right (by norm_num) (two_zpow_pos 971)

theorem two_zpow_lt_overflow {e : ℤ} (h : e ≤ 1023) : (2 : ℚ) ^ e < overflow := by
  calc (2 : ℚ) ^ e ≤ 2 ^ (971 + (52 : ℕ) : ℤ) := zpow_le_zpow_right₀ one_le_two h
    _ = 2 ^ 52 * 2 ^ (971 : ℤ) := two_zpow_add 971 52
    _ < overflow := mul_lt_mul_of_pos_right (by norm_num) (two_zpow_pos 971)

theorem rounds_overflow : Rounds overflow limit := by
  have hunit := two_zpow_pos 971
  have hquotient : overflow / 2 ^ (971 : ℤ) - (2 ^ 53 : ℤ) = -(1 / 2) := by
    rw [overflow, mul_div_cancel_right₀ _ hunit.ne']
    norm_num
  refine ⟨971, 2 ^ 53, ⟨by decide, ?_, .inl ?_, ?_, fun _ => ?_⟩, ?_⟩
  · rw [abs_of_pos overflow_pos]
    exact overflow_lt_limit
  · rw [abs_of_pos overflow_pos, overflow, show (971 + 52 : ℤ) = 971 + (52 : ℕ) from rfl,
      two_zpow_add]
    exact mul_le_mul_of_nonneg_right (by norm_num) hunit.le
  · rw [hquotient]
    norm_num
  · decide
  · rw [limit_eq]
    exact congrArg (· * (2 : ℚ) ^ (971 : ℤ)) (by norm_num)

/-- The numbers that are rounded above all doubles. -/
theorem Rounds.limit_le_iff {q r : ℚ} (h : Rounds q r) : limit ≤ r ↔ overflow ≤ q := by
  constructor
  · intro hlimit
    rcases h with ⟨unit, n, hrounds, rfl⟩
    rcases le_or_gt unit 971 with hlow | hhigh
    · have hhalf := (abs_le.1 hrounds.abs_sub_le).2
      have hunit : (2 : ℚ) ^ unit ≤ 2 ^ (971 : ℤ) := zpow_le_zpow_right₀ one_le_two hlow
      rw [limit_eq] at hlimit
      rw [overflow]
      linarith
    · -- a number with so great a unit is above the limit itself
      have hnormal := hrounds.normal.resolve_right (by omega)
      have hpower : limit ≤ 2 ^ (unit + 52) := zpow_le_zpow_right₀ one_le_two (by omega)
      rcases le_total 0 q with hpos | hneg
      · rw [abs_of_nonneg hpos] at hnormal
        linarith [overflow_lt_limit]
      · have hr := (Rounds.neg ⟨unit, n, hrounds, rfl⟩).nonneg (neg_nonneg.2 hneg)
        linarith [limit_pos]
  · exact fun hover => rounds_overflow.mono h hover

theorem Rounds.abs_lt_limit_iff {q r : ℚ} (h : Rounds q r) : |r| < limit ↔ |q| < overflow := by
  rw [abs_lt, abs_lt, neg_lt, neg_lt (a := overflow)]
  exact and_congr (lt_iff_lt_of_le_iff_le h.neg.limit_le_iff)
    (lt_iff_lt_of_le_iff_le h.limit_le_iff)

end Binary64

end Formula
