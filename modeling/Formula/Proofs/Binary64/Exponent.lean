import Formula.Builtin
import Formula.Proofs.Binary64.Arithmetic

/-!
# The binary exponent

The exponent of a number in the normal range is read off its parts. Below that range it
is the whole part of the double nearest to the logarithm. Just below a power of two that
double is the whole number itself, and the exponent comes out one too great.
-/

namespace Formula

namespace Binary64

open Float.Model (UnpackedFloat)
open Float.Model.UnpackedFloat

variable {x y z : Float} {p q l : ℚ} {m bits : ℕ}

/-! ## Whole doubles -/

theorem value?_neg (h : value? x = some p) : value? (-x) = some (-p) := by
  have hneg : -x = .ofModel (.pack x.toModel.unpack.neg) := rfl
  rw [hneg]
  rcases unpack_of_value? h with ⟨sign, hux, rfl⟩ | ⟨sign, m, e, hm, hux, hcanonical, rfl⟩ <;>
    rw [hux]
  · cases sign <;> rfl
  · refine (value?_pack_finite hcanonical).trans (congrArg some ?_)
    cases sign with
    | positive =>
        change (Sign.negative.apply m : ℚ) * 2 ^ e = _
        rw [apply_negative, apply_positive, neg_mul]
    | negative =>
        change (Sign.positive.apply m : ℚ) * 2 ^ e = _
        rw [apply_negative, apply_positive, neg_mul, neg_neg]

theorem value?_ofInt {k : ℤ} (hk : |k| < 2 ^ 53) : value? (Float.ofInt k) = some (k : ℚ) := by
  cases k with
  | ofNat n =>
      have hn : n < 2 ^ 53 := by
        rw [Int.ofNat_eq_natCast, abs_of_nonneg (Int.natCast_nonneg n)] at hk
        exact_mod_cast hk
      exact (value?_ofNat hn).trans (congrArg some (Int.cast_natCast n).symm)
  | negSucc n =>
      have hn : n + 1 < 2 ^ 53 := by
        rw [Int.negSucc_eq, abs_neg, abs_of_nonneg (by omega)] at hk
        exact_mod_cast hk
      refine (value?_neg (value?_ofNat hn)).trans (congrArg some ?_)
      rw [Int.cast_negSucc]

/-! ## The nearest double -/

/-- No double is nearer to `r` than `y`. -/
def IsNearest (y : Float) (r : ℝ) : Prop :=
  ∃ l : ℚ, value? y = some l ∧ ∀ z q, value? z = some q → |r - l| ≤ |r - q|

theorem finite_float : Finite Float :=
  Finite.of_injective (fun x : Float => (⟨x.toBits.toNat, x.toBits.toNat_lt⟩ : Fin (2 ^ 64)))
    fun _ _ h => Float.toBits_inj.1 (UInt64.toNat_inj.1 (Fin.mk.inj h))

/-- There are finitely many doubles, so every number has a nearest one. -/
theorem exists_isNearest (r : ℝ) : ∃ y, IsNearest y r := by
  have := finite_float
  let numbers : Set Float := { y | ∃ l, value? y = some l }
  rcases numbers.exists_min_image (fun y => |r - ((value? y).getD 0 : ℚ)|) (Set.toFinite _)
    ⟨0, 0, rfl⟩ with ⟨y, ⟨l, hl⟩, hleast⟩
  refine ⟨y, l, hl, fun z q hq => ?_⟩
  have hnear := hleast z ⟨q, hq⟩
  rwa [hl, hq, Option.getD_some, Option.getD_some] at hnear

namespace IsNearest

variable {r : ℝ}

theorem abs_sub_le (h : IsNearest y r) (hy : value? y = some l) (hz : value? z = some q) :
    |r - l| ≤ |r - q| := by
  rcases h with ⟨l', hy', hnear⟩
  obtain rfl := Option.some_inj.1 (hy.symm.trans hy')
  exact hnear z q hz

theorem le_of_le (h : IsNearest y r) (hy : value? y = some l) (hz : value? z = some q)
    (hq : r ≤ q) : l ≤ q := by
  by_contra hlt
  have hlt : (q : ℝ) < l := by exact_mod_cast not_le.1 hlt
  have hnear := h.abs_sub_le hy hz
  rw [abs_sub_comm, abs_of_nonneg (by linarith), abs_sub_comm, abs_of_nonneg (by linarith)] at hnear
  linarith

theorem ge_of_ge (h : IsNearest y r) (hy : value? y = some l) (hz : value? z = some q)
    (hq : q ≤ r) : q ≤ l := by
  by_contra hlt
  have hlt : (l : ℝ) < q := by exact_mod_cast not_le.1 hlt
  have hnear := h.abs_sub_le hy hz
  rw [abs_of_nonneg (by linarith), abs_of_nonneg (by linarith)] at hnear
  linarith

end IsNearest

/-- A double of magnitude `2 ^ (unit + 52)` and above is a whole number of units. -/
theorem exists_multiple {unit : ℤ} (h : value? y = some l) (hl : 2 ^ (unit + 52) ≤ |l|) :
    ∃ n : ℤ, l = n * 2 ^ unit := by
  rcases unpack_of_value? h with ⟨_, _, rfl⟩ | ⟨sign, m, e, _, _, hcanonical, rfl⟩
  · exact ⟨0, by rw [Int.cast_zero, zero_mul]⟩
  · have hpower : (2 : ℚ) ^ (unit + 52) < 2 ^ (e + (53 : ℕ)) := by
      rw [apply_eq_signed, signed_mul, abs_signed, abs_of_nonneg (by positivity)] at hl
      rw [two_zpow_add]
      exact hl.trans_lt (mul_lt_mul_of_pos_right (by exact_mod_cast hcanonical.mantissa_lt)
        (two_zpow_pos e))
    have hle : unit ≤ e := by
      have := (zpow_lt_zpow_iff_right₀ one_lt_two).1 hpower
      omega
    obtain ⟨shift, rfl⟩ := Int.le.dest hle
    refine ⟨sign.apply m * 2 ^ shift, ?_⟩
    rw [two_zpow_add]
    push_cast
    ring

/-! ## Logarithms below a power of two -/

/-- The doubles below `bits - 1074` are `2 ^ (1 - guardBits bits)` apart, so rounding reaches
half as far. -/
def guardBits (bits : ℕ) : ℕ :=
  if bits ≤ 50 then 43 else 44

/-- How many whole numbers lie below a power of two within the reach of rounding. -/
theorem logarithmSlack_bounds : ∀ bits < 53,
    2 ^ bits * 6931471808 < (logarithmSlack bits + 1) * 2 ^ guardBits bits * 10 ^ 10 ∧
      (0 < logarithmSlack bits → logarithmSlack bits * 2 ^ guardBits bits * 10 ^ 10 <
        6931471803 * (2 ^ bits - logarithmSlack bits)) := by
  decide +kernel

/-- Within the slack, the logarithm is in reach of that of the power. -/
theorem logb_in_reach (hbits : bits < 53) (hm : m < 2 ^ bits)
    (hslack : 2 ^ bits - m ≤ logarithmSlack bits) :
    -Real.logb 2 (m / 2 ^ bits) < 1 / 2 ^ guardBits bits := by
  have hbound := (logarithmSlack_bounds bits hbits).2 (by omega)
  generalize logarithmSlack bits = slack at hslack hbound
  have hpos : 0 < m := by
    refine Nat.pos_of_ne_zero fun hzero => ?_
    rw [Nat.sub_eq_zero_of_le (by omega)] at hbound
    omega
  have hdistance : (2 : ℝ) ^ bits - m ≤ slack := by
    rw [sub_le_iff_le_add]
    exact_mod_cast (by omega : 2 ^ bits ≤ slack + m)
  have hbound : (slack : ℝ) * 2 ^ guardBits bits * 10 ^ 10 < 6931471803 * m := by
    exact_mod_cast hbound.trans_le (Nat.mul_le_mul_left _ (by omega))
  have hpower : (0 : ℝ) < 2 ^ bits := by positivity
  have hguard : (0 : ℝ) < 2 ^ guardBits bits := by positivity
  have hm : (0 : ℝ) < m := Nat.cast_pos.2 hpos
  have hlog : -Real.log (m / 2 ^ bits) ≤ (2 ^ bits - m) / m := by
    rw [← Real.log_inv, inv_div, sub_div, div_self hm.ne']
    exact Real.log_le_sub_one_of_pos (div_pos hpower hm)
  rw [Real.logb, ← neg_div, div_lt_div_iff₀ (Real.log_pos one_lt_two) hguard, one_mul]
  calc -Real.log (m / 2 ^ bits) * 2 ^ guardBits bits ≤ (2 ^ bits - m) / m * 2 ^ guardBits bits :=
        mul_le_mul_of_nonneg_right hlog hguard.le
    _ ≤ slack / m * 2 ^ guardBits bits :=
        mul_le_mul_of_nonneg_right (div_le_div_of_nonneg_right hdistance hm.le) hguard.le
    _ < 0.6931471803 := by
        rw [div_mul_eq_mul_div, div_lt_iff₀ hm]
        linarith
    _ < Real.log 2 := Real.log_two_gt_d9

/-- Beyond the slack, it is out of reach. -/
theorem logb_out_of_reach (hbits : bits < 53) (hpos : 0 < m)
    (hslack : logarithmSlack bits < 2 ^ bits - m) :
    1 / 2 ^ guardBits bits < -Real.logb 2 (m / 2 ^ bits) := by
  have hbound := (logarithmSlack_bounds bits hbits).1
  generalize logarithmSlack bits = slack at hslack hbound
  have hdistance : (slack : ℝ) + 1 ≤ 2 ^ bits - m := by
    rw [le_sub_iff_add_le]
    exact_mod_cast (by omega : slack + 1 + m ≤ 2 ^ bits)
  have hbound : (2 : ℝ) ^ bits * 6931471808 < (slack + 1) * 2 ^ guardBits bits * 10 ^ 10 := by
    exact_mod_cast hbound
  have hpower : (0 : ℝ) < 2 ^ bits := by positivity
  have hguard : (0 : ℝ) < 2 ^ guardBits bits := by positivity
  have hquotient : (0 : ℝ) < m / 2 ^ bits := div_pos (Nat.cast_pos.2 hpos) hpower
  have hlog : (2 ^ bits - m) / 2 ^ bits ≤ -Real.log (m / 2 ^ bits) := by
    rw [sub_div, div_self hpower.ne']
    linarith [Real.log_le_sub_one_of_pos hquotient]
  rw [Real.logb, ← neg_div, div_lt_div_iff₀ hguard (Real.log_pos one_lt_two), one_mul]
  calc Real.log 2 < 0.6931471808 := Real.log_two_lt_d9
    _ < (slack + 1) / 2 ^ bits * 2 ^ guardBits bits := by
        rw [div_mul_eq_mul_div, lt_div_iff₀ hpower]
        linarith
    _ ≤ (2 ^ bits - m) / 2 ^ bits * 2 ^ guardBits bits :=
        mul_le_mul_of_nonneg_right (div_le_div_of_nonneg_right hdistance hpower.le) hguard.le
    _ ≤ -Real.log (m / 2 ^ bits) * 2 ^ guardBits bits := mul_le_mul_of_nonneg_right hlog hguard.le

/-- The logarithm of a subnormal number, by that of the power of two above it. -/
theorem logb_subnormal (hm : 0 < m) (bits : ℕ) :
    Real.logb 2 (m * 2 ^ (-1074 : ℤ)) = (bits - 1074) + Real.logb 2 (m / 2 ^ bits) := by
  have hquotient : (m / 2 ^ bits : ℝ) ≠ 0 := by positivity
  have hpower : (m * 2 ^ (-1074 : ℤ) : ℝ) = 2 ^ ((bits : ℤ) - 1074) * (m / 2 ^ bits) := by
    rw [sub_eq_add_neg, zpow_add₀ two_ne_zero, zpow_natCast]
    field_simp
  rw [hpower, Real.logb_mul (by positivity) hquotient, ← Real.rpow_intCast,
    Real.logb_rpow two_pos one_lt_two.ne']
  push_cast
  rfl

/-! ## The double nearest to a logarithm -/

theorem two_zpow_guardBits (bits : ℕ) :
    (2 : ℚ) ^ (1 - guardBits bits : ℤ) = 2 / 2 ^ guardBits bits := by
  rw [zpow_sub₀ two_ne_zero, zpow_one, zpow_natCast]

/-- From `bits - 1074` downwards, doubles are whole numbers of the spacing. -/
theorem two_zpow_guardBits_le (hbits : bits < 53) :
    (2 : ℚ) ^ ((1 - guardBits bits : ℤ) + 52) ≤ 1074 - bits := by
  unfold guardBits
  split
  · have : (bits : ℚ) ≤ 50 := by exact_mod_cast ‹bits ≤ 50›
    norm_num
    linarith
  · have : (bits : ℚ) ≤ 52 := by exact_mod_cast (by omega : bits ≤ 52)
    norm_num
    linarith

theorem exists_guardBits_eq_succ (bits : ℕ) : ∃ half ≤ 43, guardBits bits = half + 1 := by
  unfold guardBits
  split
  · exact ⟨42, by decide, rfl⟩
  · exact ⟨43, by decide, rfl⟩

/-- The next double below `bits - 1074` is one spacing away. -/
theorem exists_value_below (hbits : bits < 53) :
    ∃ z, value? z = some ((bits : ℚ) - 1074 - 2 / 2 ^ guardBits bits) := by
  rcases exists_guardBits_eq_succ bits with ⟨half, hle, hhalf⟩
  have hfits : (1074 - bits) * 2 ^ half + 1 < 2 ^ 53 := by
    unfold guardBits at hhalf
    split at hhalf <;> obtain rfl := Nat.succ.inj hhalf <;> omega
  have hcast : ((1074 - bits : ℕ) : ℚ) = 1074 - bits := by
    rw [Nat.cast_sub (by omega)]
    norm_num
  have hvalue : value? (nearest .negative ((1074 - bits) * 2 ^ half + 1) (-half)) = _ :=
    value?_nearest hfits (by omega) (by omega)
  refine ⟨_, hvalue.trans (congrArg some ?_)⟩
  rw [apply_negative, hhalf, zpow_neg, zpow_natCast, pow_succ]
  push_cast
  rw [hcast]
  field_simp
  ring

/-- Between it and `bits - 1074` there is no double. -/
theorem le_sub_spacing (hbits : bits < 53) (hy : value? y = some l)
    (hlt : l < bits - 1074) : l ≤ bits - 1074 - 2 / 2 ^ guardBits bits := by
  have hbits' : (bits : ℚ) < 53 := by exact_mod_cast hbits
  have hlarge : 2 ^ ((1 - guardBits bits : ℤ) + 52) ≤ |l| := by
    rw [abs_of_neg (by linarith)]
    exact (two_zpow_guardBits_le hbits).trans (by linarith)
  rcases exists_multiple hy hlarge with ⟨n, hn⟩
  rcases exists_guardBits_eq_succ bits with ⟨half, -, hhalf⟩
  have hspacing : (2 : ℚ) / 2 ^ guardBits bits = 1 / 2 ^ half := by
    rw [hhalf, pow_succ]
    field_simp
  have hunit : (0 : ℚ) < 1 / 2 ^ half := by positivity
  have hwhole : (bits - 1074 : ℚ) = ((bits - 1074) * 2 ^ half : ℤ) * (1 / 2 ^ half) := by
    push_cast
    field_simp
  rw [two_zpow_guardBits, hspacing] at hn
  rw [hn, hwhole] at hlt
  rw [hn, hwhole, hspacing]
  have hnext : n + 1 ≤ (bits - 1074) * 2 ^ half :=
    Int.add_one_le_of_lt (Int.cast_lt.1 (lt_of_mul_lt_mul_right hlt hunit.le))
  have hnext' : (n + 1 : ℚ) ≤ ((bits - 1074) * 2 ^ half : ℤ) := by exact_mod_cast hnext
  linarith [mul_le_mul_of_nonneg_right hnext' hunit.le]

theorem value?_bits_sub (hbits : bits < 53) {c : ℕ} (hc : c ≤ 1075) :
    value? (Float.ofInt (bits - c)) = some ((bits : ℚ) - c) := by
  rw [value?_ofInt (by rw [abs_lt]; omega)]
  push_cast
  rfl

section

variable {r : ℝ}

/-- In reach of a whole number, the nearest double is that number. -/
theorem IsNearest.eq_whole (h : IsNearest y r) (hy : value? y = some l) (hbits : bits < 53)
    (hbelow : r ≤ bits - 1074) (hreach : (bits - 1074 : ℝ) - r < 1 / 2 ^ guardBits bits) :
    l = bits - 1074 := by
  have hwhole := value?_bits_sub hbits (by decide : 1074 ≤ 1075)
  have hle : l ≤ bits - 1074 := h.le_of_le hy hwhole (by push_cast; exact hbelow)
  refine hle.antisymm (not_lt.1 fun hlt => ?_)
  have hspacing : (l : ℝ) ≤ (bits - 1074 - 2 / 2 ^ guardBits bits : ℚ) :=
    Rat.cast_le.2 (le_sub_spacing hbits hy hlt)
  push_cast at hspacing
  have hnear := h.abs_sub_le hy hwhole
  push_cast at hnear
  rw [abs_of_nonpos (by linarith : r - (bits - 1074) ≤ 0)] at hnear
  have htwice : (2 : ℝ) / 2 ^ guardBits bits = 2 * (1 / 2 ^ guardBits bits) := by ring
  linarith [le_abs_self (r - l)]

/-- Out of reach, the nearest double stays below it. -/
theorem IsNearest.floor_eq (h : IsNearest y r) (hy : value? y = some l) (hbits : bits < 53)
    (hbelow : r ≤ bits - 1074) (habove : (bits - 1075 : ℝ) ≤ r)
    (hreach : 1 / 2 ^ guardBits bits < (bits - 1074 : ℝ) - r) : ⌊l⌋ = (bits - 1075 : ℤ) := by
  have hle : l ≤ bits - 1074 :=
    h.le_of_le hy (value?_bits_sub hbits (by decide : 1074 ≤ 1075)) (by push_cast; exact hbelow)
  have hge : bits - 1075 ≤ l :=
    h.ge_of_ge hy (value?_bits_sub hbits le_rfl) (by push_cast; exact habove)
  have hne : l ≠ bits - 1074 := by
    rintro rfl
    -- the next double below would be nearer
    rcases exists_value_below hbits with ⟨z, hz⟩
    have hnear := h.abs_sub_le hy hz
    have htwice : (2 : ℝ) / 2 ^ guardBits bits = 2 * (1 / 2 ^ guardBits bits) := by ring
    have hpos : (0 : ℝ) < 1 / 2 ^ guardBits bits := by positivity
    push_cast at hnear
    rw [abs_of_nonpos (by linarith : r - (bits - 1074) ≤ 0), htwice] at hnear
    rcases abs_cases (r - (bits - 1074 - 2 * (1 / 2 ^ guardBits bits))) with ⟨habs, -⟩ | ⟨habs, -⟩ <;>
      rw [habs] at hnear <;> linarith
  rw [Int.floor_eq_iff]
  push_cast
  exact ⟨hge, by linarith [hle.lt_of_ne hne]⟩

end

/-! ## The exponent -/

/-- The exponent of the parts, which is the exponent of the number. -/
theorem exponent_of_parts {e : ℤ} (hm : 0 < m) :
    (2 : ℚ) ^ (m.log2 + e) ≤ m * 2 ^ e ∧ (m : ℚ) * 2 ^ e < 2 ^ (m.log2 + e + 1) := by
  have hlow : (2 ^ m.log2 : ℚ) ≤ m := by exact_mod_cast Nat.log2_self_le hm.ne'
  have hhigh : (m : ℚ) < 2 ^ (m.log2 + 1) := by exact_mod_cast Nat.lt_log2_self (n := m)
  constructor
  · rw [add_comm, two_zpow_add]
    exact mul_le_mul_of_nonneg_right hlow (two_zpow_pos e).le
  · rw [show (m.log2 + e + 1 : ℤ) = e + (m.log2 + 1 : ℕ) by push_cast; ring, two_zpow_add]
    exact mul_lt_mul_of_pos_right hhigh (two_zpow_pos e)

theorem binaryExponent_of_parts {sign : Sign} {e : ℤ} {hm : 0 < m}
    (hx : x.toModel.unpack = .finite sign m e hm) :
    binaryExponent x =
      if m.log2 + 1 = 53 then Float.ofInt (e + 52)
      else if 2 ^ (m.log2 + 1) - m ≤ logarithmSlack (m.log2 + 1) then
        Float.ofInt ((m.log2 + 1 : ℕ) - 1074)
      else Float.ofInt ((m.log2 + 1 : ℕ) - 1075) := by
  simp only [binaryExponent, hx]
  rfl

theorem abs_value (sign : Sign) (m : ℕ) (e : ℤ) :
    |(sign.apply m : ℚ) * 2 ^ e| = m * 2 ^ e := by
  rw [apply_eq_signed, signed_mul, abs_signed, abs_of_nonneg (by positivity)]

/-- In the normal range the exponent is exact. -/
theorem binaryExponent_normal (h : value? x = some p) (hnormal : 2 ^ (-1022 : ℤ) ≤ |p|) :
    ∃ e : ℤ, 2 ^ e ≤ |p| ∧ |p| < 2 ^ (e + 1) ∧ value? (binaryExponent x) = some (e : ℚ) := by
  rcases unpack_of_value? h with ⟨_, _, rfl⟩ | ⟨sign, m, e, hm, hux, hcanonical, rfl⟩
  · rw [abs_zero] at hnormal
    exact absurd hnormal (two_zpow_pos _).not_ge
  rw [abs_value] at hnormal ⊢
  have hlow : 2 ^ 52 ≤ m := by
    rcases hcanonical.normal with hlow | rfl
    · exact hlow
    · have hpower : (2 : ℚ) ^ (-1022 : ℤ) = 2 ^ 52 * 2 ^ (-1074 : ℤ) := by
        rw [← two_zpow_add]
        rfl
      rw [hpower] at hnormal
      exact_mod_cast le_of_mul_le_mul_right hnormal (two_zpow_pos (-1074))
  have hlog : m.log2 = 52 := log2_eq_of_normal hlow hcanonical.mantissa_lt
  have hleast := hcanonical.least_le
  have hgreatest := hcanonical.le_greatest
  have hexponent := exponent_of_parts (e := e) hm
  rw [hlog, add_comm] at hexponent
  refine ⟨e + 52, hexponent.1, hexponent.2, ?_⟩
  rw [binaryExponent_of_parts hux, if_pos (by rw [hlog])]
  exact value?_ofInt (by rw [abs_lt]; omega)

theorem logb_quotient_bounds (hm : 0 < m) :
    -1 ≤ Real.logb 2 (m / 2 ^ (m.log2 + 1)) ∧ Real.logb 2 (m / 2 ^ (m.log2 + 1)) ≤ 0 := by
  have hlow : (2 ^ m.log2 : ℝ) ≤ m := by exact_mod_cast Nat.log2_self_le hm.ne'
  have hhigh : (m : ℝ) ≤ 2 ^ (m.log2 + 1) := by exact_mod_cast Nat.lt_log2_self.le
  have hpos : (0 : ℝ) < m / 2 ^ (m.log2 + 1) := by positivity
  constructor
  · rw [Real.le_logb_iff_rpow_le one_lt_two hpos, Real.rpow_neg_one, le_div_iff₀ (by positivity),
      pow_succ]
    linarith
  · exact Real.logb_nonpos one_lt_two hpos.le ((div_le_one (by positivity)).2 hhigh)

/-- The exponent taken for `m` least units: one too great within the slack. -/
def subnormalExponent (m : ℕ) : ℤ :=
  if 2 ^ (m.log2 + 1) - m ≤ logarithmSlack (m.log2 + 1) then (m.log2 + 1 : ℕ) - 1074
  else (m.log2 + 1 : ℕ) - 1075

theorem log2_succ_lt (hlow : m < 2 ^ 52) : m.log2 + 1 < 53 := by
  have := log2_lt_of_subnormal hlow
  omega

theorem value?_binaryExponent_subnormal {sign : Sign} {hm : 0 < m} (hlow : m < 2 ^ 52)
    (hx : x.toModel.unpack = .finite sign m (-1074) hm) :
    value? (binaryExponent x) = some (subnormalExponent m : ℚ) := by
  have hbits := log2_succ_lt hlow
  rw [binaryExponent_of_parts hx, if_neg hbits.ne, subnormalExponent]
  split
  · exact value?_ofInt (by rw [abs_lt]; omega)
  · exact value?_ofInt (by rw [abs_lt]; omega)

/-- The double nearest to the logarithm has the same whole part. -/
theorem value?_floor_nearest (hm : 0 < m) (hlow : m < 2 ^ 52)
    (h : IsNearest y (Real.logb 2 (m * 2 ^ (-1074 : ℤ)))) :
    value? (floor y) = some (subnormalExponent m : ℚ) := by
  have hbits := log2_succ_lt hlow
  have hbelow := logb_quotient_bounds hm
  have hhigh : m < 2 ^ (m.log2 + 1) := Nat.lt_log2_self
  rcases id h with ⟨l, hl, -⟩
  rw [logb_subnormal hm (m.log2 + 1)] at h
  rw [value?_floor hl, subnormalExponent]
  generalize m.log2 + 1 = bits at *
  by_cases hslack : 2 ^ bits - m ≤ logarithmSlack bits
  · have hreach := logb_in_reach hbits hhigh hslack
    have hwhole : l = (bits - 1074 : ℤ) := by
      push_cast
      exact h.eq_whole hl hbits (by linarith) (by linarith)
    rw [if_pos hslack, hwhole, Int.floor_intCast]
  · have hreach := logb_out_of_reach hbits hm (not_le.1 hslack)
    rw [if_neg hslack, h.floor_eq hl hbits (by linarith) (by linarith) (by linarith)]

/-- The slack, as a distance of numbers. -/
theorem within_slack_iff (m : ℕ) :
    (2 : ℚ) ^ (m.log2 + -1074 + 1 : ℤ) - m * 2 ^ (-1074 : ℤ) ≤
        logarithmSlack (m.log2 + -1074 + 1075 : ℤ).toNat * 2 ^ (-1074 : ℤ) ↔
      2 ^ (m.log2 + 1) - m ≤ logarithmSlack (m.log2 + 1) := by
  have hbits : (m.log2 + -1074 + 1075 : ℤ).toNat = m.log2 + 1 := by omega
  have hpower : (2 : ℚ) ^ (m.log2 + -1074 + 1 : ℤ) = 2 ^ (m.log2 + 1) * 2 ^ (-1074 : ℤ) := by
    rw [← two_zpow_add]
    congr 1
    push_cast
    ring
  rw [hbits, hpower, ← sub_mul, mul_le_mul_iff_left₀ (two_zpow_pos _), sub_le_iff_le_add,
    tsub_le_iff_right]
  norm_cast

/-- Below the normal range the exponent is the whole part of the double nearest to the
logarithm. It is one too great for the last numbers below a power of two. -/
theorem binaryExponent_subnormal (h : value? x = some p) (hp : p ≠ 0)
    (hsubnormal : |p| < 2 ^ (-1022 : ℤ)) :
    ∃ e : ℤ, 2 ^ e ≤ |p| ∧ |p| < 2 ^ (e + 1) ∧
      (∀ y, IsNearest y (Real.logb 2 |(p : ℝ)|) → value? (binaryExponent x) = value? (floor y)) ∧
      value? (binaryExponent x) = some
        (if 2 ^ (e + 1) - |p| ≤ logarithmSlack (e + 1075).toNat * 2 ^ (-1074 : ℤ) then (e + 1 : ℚ)
          else e) := by
  rcases unpack_of_value? h with ⟨_, _, rfl⟩ | ⟨sign, m, e, hm, hux, hcanonical, rfl⟩
  · exact absurd rfl hp
  have habs : |(((sign.apply m : ℚ) * 2 ^ e : ℚ) : ℝ)| = m * 2 ^ e := by
    rw [← Rat.cast_abs, abs_value]
    push_cast
    rfl
  rw [habs]
  rw [abs_value] at hsubnormal ⊢
  have hlow : m < 2 ^ 52 := by
    refine not_le.1 fun hge => ?_
    have hpower : (2 : ℚ) ^ (-1022 : ℤ) ≤ m * 2 ^ e := by
      calc (2 : ℚ) ^ (-1022 : ℤ) ≤ 2 ^ (e + (52 : ℕ)) :=
            zpow_le_zpow_right₀ one_le_two (by have := hcanonical.least_le; omega)
        _ = 2 ^ 52 * 2 ^ e := two_zpow_add e 52
        _ ≤ m * 2 ^ e := mul_le_mul_of_nonneg_right (by exact_mod_cast hge) (two_zpow_pos e).le
    exact hsubnormal.not_ge hpower
  obtain rfl := hcanonical.normal.resolve_left hlow.not_ge
  have hexponent := exponent_of_parts (e := -1074) hm
  have hvalue := value?_binaryExponent_subnormal hlow hux
  refine ⟨m.log2 + -1074, hexponent.1, hexponent.2, fun y hy => ?_, ?_⟩
  · rw [hvalue, value?_floor_nearest hm hlow hy]
  · rw [hvalue, subnormalExponent]
    simp only [within_slack_iff]
    split
    · push_cast
      congr 1
      ring
    · push_cast
      congr 1
      ring

end Binary64

namespace Builtin

open Binary64

variable {run : Float → Float} {x : Float} {p : ℚ}

/-- The builtin binary exponent. It is the exponent `e` of the number in the normal range.
Below, where it is the whole part of the double nearest to the logarithm, it is `e + 1` for
the numbers that lie below a power of two by no more than the slack. -/
theorem standard_logb (hrun : Registry.standard.function? "logb" = some (.unary run))
    (h : value? x = some p) (hp : p ≠ 0) :
    ∃ e : ℤ, 2 ^ e ≤ |p| ∧ |p| < 2 ^ (e + 1) ∧
      (2 ^ (-1022 : ℤ) ≤ |p| → value? (run x) = some (e : ℚ)) ∧
      (|p| < 2 ^ (-1022 : ℤ) →
        (∃ y, IsNearest y (Real.logb 2 |(p : ℝ)|)) ∧
          (∀ y, IsNearest y (Real.logb 2 |(p : ℝ)|) → value? (run x) = value? (floor y)) ∧
          value? (run x) = some
            (if 2 ^ (e + 1) - |p| ≤ logarithmSlack (e + 1075).toNat * 2 ^ (-1074 : ℤ)
              then (e + 1 : ℚ) else e)) := by
  have hlookup : Registry.standard.function? "logb" = some (.unary binaryExponent) := rfl
  obtain rfl : run = binaryExponent :=
    Function.unary.inj (Option.some_inj.1 (hrun.symm.trans hlookup))
  rcases lt_or_ge |p| (2 ^ (-1022 : ℤ)) with hsubnormal | hnormal
  · rcases binaryExponent_subnormal h hp hsubnormal with ⟨e, hlow, hhigh, hnearest, hvalue⟩
    exact ⟨e, hlow, hhigh, fun hnormal => absurd hsubnormal hnormal.not_gt,
      fun _ => ⟨exists_isNearest _, hnearest, hvalue⟩⟩
  · rcases binaryExponent_normal h hnormal with ⟨e, hlow, hhigh, hvalue⟩
    exact ⟨e, hlow, hhigh, fun _ => hvalue,
      fun hsubnormal => absurd hsubnormal hnormal.not_gt⟩

/-- The greatest number below the normal range gets the exponent of the power above it. -/
theorem standard_logb_greatest_subnormal :
    Registry.standard.function? "logb" = some (.unary binaryExponent) ∧
      value? (Float.ofBits 0x000FFFFFFFFFFFFF) = some ((2 ^ 52 - 1) * 2 ^ (-1074 : ℤ)) ∧
      ((2 ^ 52 - 1) * 2 ^ (-1074 : ℤ) : ℚ) ≠ 0 ∧
      (2 : ℚ) ^ (-1023 : ℤ) ≤ |(2 ^ 52 - 1) * 2 ^ (-1074 : ℤ)| ∧
      |((2 ^ 52 - 1) * 2 ^ (-1074 : ℤ) : ℚ)| < 2 ^ (-1022 : ℤ) ∧
      value? (binaryExponent (Float.ofBits 0x000FFFFFFFFFFFFF)) = some (-1022 : ℚ) := by
  have hlookup : Registry.standard.function? "logb" = some (.unary binaryExponent) := rfl
  have hvalue : value? (Float.ofBits 0x000FFFFFFFFFFFFF) =
      some ((2 ^ 52 - 1) * 2 ^ (-1074 : ℤ)) := by decide +kernel
  have hp : ((2 ^ 52 - 1) * 2 ^ (-1074 : ℤ) : ℚ) ≠ 0 := by decide +kernel
  have hlow : (2 : ℚ) ^ (-1023 : ℤ) ≤ |(2 ^ 52 - 1) * 2 ^ (-1074 : ℤ)| := by decide +kernel
  have hhigh : |((2 ^ 52 - 1) * 2 ^ (-1074 : ℤ) : ℚ)| < 2 ^ (-1022 : ℤ) := by decide +kernel
  rcases standard_logb hlookup hvalue hp with ⟨e, helow, hehigh, -, hsubnormal⟩
  have hbelow := (zpow_lt_zpow_iff_right₀ one_lt_two).1 (helow.trans_lt hhigh)
  have habove := (zpow_lt_zpow_iff_right₀ one_lt_two).1 (hlow.trans_lt hehigh)
  obtain rfl : e = -1023 := by omega
  refine ⟨hlookup, hvalue, hp, hlow, hhigh, (hsubnormal hhigh).2.2.trans ?_⟩
  decide +kernel

end Builtin

end Formula
