import Formula.Proofs.Binary64.Parts

/-!
# Exact values of doubles

The rational number that a double stands for. Comparisons of doubles compare these
numbers, and rounding down takes the floor of them.
-/

namespace Formula

namespace Binary64

open Float.Model (UnpackedFloat)
open Float.Model.UnpackedFloat (Sign)

/-- The number that a double stands for. Neither NaN nor an infinity stands for one. -/
def value? (x : Float) : Option ℚ :=
  match x.toModel.unpack with
  | .zero _ => some 0
  | .finite sign mantissa exponent _ => some (sign.apply mantissa * 2 ^ exponent)
  | _ => none

variable {x y : Float} {p q : ℚ}

theorem exists_value? (hnan : x.isNaN = false) (hinf : x.isInf = false) :
    ∃ value, value? x = some value := by
  unfold Float.isNaN Float.Model.isNaN at hnan
  unfold Float.isInf Float.Model.isInf at hinf
  unfold value?
  cases hx : x.toModel.unpack with
  | notANumber =>
      rw [hx] at hnan
      cases hnan
  | infinity sign =>
      rw [hx] at hinf
      cases hinf
  | zero sign => exact ⟨0, rfl⟩
  | finite sign mantissa exponent hpos => exact ⟨_, rfl⟩

theorem unpack_of_value? (h : value? x = some p) :
    (∃ sign, x.toModel.unpack = .zero sign ∧ p = 0) ∨
      ∃ sign mantissa exponent hpos, x.toModel.unpack = .finite sign mantissa exponent hpos ∧
        Canonical mantissa exponent ∧ p = sign.apply mantissa * 2 ^ exponent := by
  unfold value? at h
  cases hx : x.toModel.unpack with
  | notANumber | infinity _ =>
      rw [hx] at h
      cases h
  | zero sign =>
      rw [hx] at h
      cases h
      exact .inl ⟨sign, rfl, rfl⟩
  | finite sign mantissa exponent hpos =>
      rw [hx] at h
      cases h
      exact .inr ⟨sign, mantissa, exponent, hpos, rfl, canonical_of_unpack hx, rfl⟩

/-! ## Comparison -/

section

variable {m n : Nat} {e f : Int}

/-- A greater exponent makes the greater number, whatever the mantissas are. -/
theorem lt_of_exponent_lt (hm : Canonical m e) (hn : Canonical n f) (h : e < f) :
    (m : ℚ) * 2 ^ e < n * 2 ^ f := by
  obtain ⟨gap, rfl⟩ : ∃ gap : Nat, f = e + (gap + 1 : Nat) := ⟨(f - e - 1).toNat, by omega⟩
  -- above the least exponent the first bit of the mantissa is set
  have hnormal : 2 ^ 52 ≤ n := hn.normal.resolve_right (by have := hm.least_le; omega)
  have hmn : m < n * 2 ^ (gap + 1) := by
    have hm' := hm.mantissa_lt
    have hgap : n * 2 ≤ n * 2 ^ (gap + 1) :=
      Nat.mul_le_mul_left n (Nat.le_self_pow (by omega) 2)
    omega
  calc (m : ℚ) * 2 ^ e < ((n * 2 ^ (gap + 1) : Nat) : ℚ) * 2 ^ e :=
        mul_lt_mul_of_pos_right (Nat.cast_lt.2 hmn) (zpow_pos two_pos e)
    _ = n * 2 ^ (e + (gap + 1 : Nat)) := by
        rw [zpow_add₀ two_ne_zero, zpow_natCast]
        push_cast
        ring

theorem compares_parts (hm : Canonical m e) (hn : Canonical n f) :
    ((compare e f).then (compare m n)).Compares ((m : ℚ) * 2 ^ e) (n * 2 ^ f) := by
  rcases lt_trichotomy e f with h | rfl | h
  · rw [compare_lt_iff_lt.2 h]
    exact lt_of_exponent_lt hm hn h
  · have hunit : (0 : ℚ) < 2 ^ e := zpow_pos two_pos e
    rw [compare_eq_iff_eq.2 rfl]
    rcases lt_trichotomy m n with h | rfl | h
    · rw [compare_lt_iff_lt.2 h]
      exact mul_lt_mul_of_pos_right (Nat.cast_lt.2 h) hunit
    · rw [compare_eq_iff_eq.2 rfl]
      exact rfl
    · rw [compare_gt_iff_gt.2 h]
      exact mul_lt_mul_of_pos_right (Nat.cast_lt.2 h) hunit
  · rw [compare_gt_iff_gt.2 h]
    exact lt_of_exponent_lt hn hm h

theorem apply_positive : (Sign.positive.apply m : ℚ) = m := rfl

theorem apply_negative : (Sign.negative.apply m : ℚ) = -m :=
  Int.cast_neg _

theorem magnitude_pos (hm : 0 < m) : (0 : ℚ) < Sign.positive.apply m * 2 ^ e :=
  mul_pos (Nat.cast_pos.2 hm) (zpow_pos two_pos e)

theorem neg_magnitude_neg (hm : 0 < m) : (Sign.negative.apply m * 2 ^ e : ℚ) < 0 := by
  rw [apply_negative, neg_mul]
  exact neg_neg_of_pos (magnitude_pos hm)

theorem compares_neg {order : Ordering} (h : order.Compares p q) :
    order.swap.Compares (-p) (-q) := by
  rw [Ordering.compares_swap]
  cases order with
  | lt => exact neg_lt_neg h
  | eq => exact congrArg _ (Eq.symm h)
  | gt => exact neg_lt_neg h

end

/-- Doubles that stand for numbers compare as these numbers do. -/
theorem compares_value (hx : value? x = some p) (hy : value? y = some q) :
    ∃ order : Ordering, x.toModel.unpack.compare y.toModel.unpack = some order ∧
      order.Compares p q := by
  rcases unpack_of_value? hx with ⟨s, hux, rfl⟩ | ⟨s, m, e, hm, hux, hcm, rfl⟩ <;>
    rcases unpack_of_value? hy with ⟨t, huy, rfl⟩ | ⟨t, n, f, hn, huy, hcn, rfl⟩ <;>
    rw [hux, huy]
  · exact ⟨.eq, rfl, rfl⟩
  · cases t with
    | positive => exact ⟨.lt, rfl, magnitude_pos hn⟩
    | negative => exact ⟨.gt, rfl, neg_magnitude_neg hn⟩
  · cases s with
    | positive => exact ⟨.gt, rfl, magnitude_pos hm⟩
    | negative => exact ⟨.lt, rfl, neg_magnitude_neg hm⟩
  · have hparts := compares_parts hcm hcn
    cases s with
    | positive => cases t with
      | positive => exact ⟨_, rfl, hparts⟩
      | negative => exact ⟨.gt, rfl, (neg_magnitude_neg hn).trans (magnitude_pos hm)⟩
    | negative => cases t with
      | positive => exact ⟨.lt, rfl, (neg_magnitude_neg hm).trans (magnitude_pos hn)⟩
      | negative =>
          rw [apply_negative, apply_negative, neg_mul, neg_mul]
          exact ⟨_, rfl, compares_neg hparts⟩

theorem beq_iff_compare :
    (x == y) = true ↔ x.toModel.unpack.compare y.toModel.unpack = some .eq := by
  change (x.toModel.unpack.compare y.toModel.unpack == some .eq) = true ↔ _
  exact beq_iff_eq

theorem lt_iff_compare :
    x < y ↔ x.toModel.unpack.compare y.toModel.unpack = some .lt :=
  decide_eq_true_iff.trans beq_iff_eq

theorem beq_iff_value (hx : value? x = some p) (hy : value? y = some q) :
    (x == y) = true ↔ p = q := by
  rcases compares_value hx hy with ⟨order, hcompare, hpq⟩
  rw [beq_iff_compare, hcompare, Option.some_inj]
  exact hpq.eq_eq

theorem lt_iff_value (hx : value? x = some p) (hy : value? y = some q) :
    x < y ↔ p < q := by
  rcases compares_value hx hy with ⟨order, hcompare, hpq⟩
  rw [lt_iff_compare, hcompare, Option.some_inj]
  exact hpq.eq_lt

/-! ## Rounding -/

/-- Shifting the mantissa up and the exponent down leaves the number as it is. -/
theorem apply_shifted (sign : Sign) (m shift : Nat) (e : Int) :
    (sign.apply (m * 2 ^ shift : Nat) : ℚ) * 2 ^ (e - shift) = sign.apply m * 2 ^ e := by
  have hunit : (2 : ℚ) ^ shift * 2 ^ (e - shift) = 2 ^ e := by
    rw [← zpow_natCast, ← zpow_add₀ two_ne_zero, add_sub_cancel]
  have happly : (sign.apply (m * 2 ^ shift : Nat) : ℚ) = sign.apply m * 2 ^ shift := by
    cases sign with
    | positive =>
        rw [apply_positive, apply_positive]
        push_cast
        rfl
    | negative =>
        rw [apply_negative, apply_negative]
        push_cast
        ring
  rw [happly, mul_assoc, hunit]

theorem value?_pack_finite {sign : Sign} {m : Nat} {e : Int} {hm : 0 < m} (h : Canonical m e) :
    value? (.ofModel (.pack (.finite sign m e hm))) = some ((sign.apply m : ℚ) * 2 ^ e) := by
  simp only [value?, unpack_pack_finite h]

/-- Parts that fit are packed without loss. -/
theorem value?_nearest {sign : Sign} {m : Nat} {e : Int} (hm : m < 2 ^ 53)
    (hleast : -1074 ≤ e) (hgreatest : e ≤ 971) :
    value? (nearest sign m e) = some ((sign.apply m : ℚ) * 2 ^ e) := by
  rcases Nat.eq_zero_or_pos m with rfl | hpos
  · have hzero : (sign.apply (0 : Nat) : ℚ) = 0 := by
      cases sign <;> rfl
    rw [nearest, round_zero hleast, hzero, zero_mul]
    cases sign <;> rfl
  · rcases round_of_fits sign hpos hm hleast hgreatest with ⟨shift, _, hround, hfit⟩
    rw [nearest, hround, value?_pack_finite hfit, apply_shifted]

/-- Cutting `± m / unit` down to a whole number is the division that rounds down. -/
theorem apply_down (sign : Sign) (m : Nat) {unit : Nat} (hunit : 0 < unit) :
    sign.apply (if Rounding.down.raises sign (m % unit) unit then m / unit + 1
      else m / unit : Nat) = sign.apply m / unit := by
  cases sign with
  | positive =>
      have hkeep : Rounding.down.raises .positive (m % unit) unit = false :=
        Bool.and_false _
      rw [hkeep]
      exact Int.natCast_ediv m unit
  | negative =>
      have hraise : Rounding.down.raises .negative (m % unit) unit = (m % unit != 0) :=
        Bool.and_true _
      have hsign : (unit : Int).sign = 1 := Int.sign_eq_one_of_pos (by omega)
      have hdvd : (unit : Int) ∣ m ↔ m % unit = 0 :=
        Int.natCast_dvd_natCast.trans Nat.dvd_iff_mod_eq_zero
      rw [hraise]
      simp only [Sign.apply, Int.neg_ediv, hdvd, hsign]
      by_cases hrest : m % unit = 0
      · simp [hrest]
      · simp [hrest]
        omega

/-- Rounding down takes the floor of the number. -/
theorem value?_floor (h : value? x = some p) : value? (floor x) = some (⌊p⌋ : ℚ) := by
  rcases unpack_of_value? h with ⟨sign, hux, rfl⟩ | ⟨sign, m, e, hm, hux, hcanonical, rfl⟩
  · have hfloor : floor x = x := by simp only [floor, toWhole, hux]
    rw [hfloor, h, Int.floor_zero, Int.cast_zero]
  by_cases he : 0 ≤ e
  · have hfloor : floor x = x := by simp only [floor, toWhole, hux, if_pos he]
    obtain ⟨shift, rfl⟩ := Int.eq_ofNat_of_zero_le he
    have hwhole : (sign.apply m : ℚ) * 2 ^ (shift : Int) = (sign.apply m * 2 ^ shift : Int) := by
      push_cast
      rfl
    rw [hfloor, h, hwhole, Int.floor_intCast]
  · -- the fraction has `shift + 1` bits, and what is left of the mantissa fits
    obtain ⟨shift, rfl⟩ : ∃ shift : Nat, e = -(shift + 1 : Nat) := ⟨(-e - 1).toNat, by omega⟩
    have hfloor : floor x = nearest sign
        (if Rounding.down.raises sign (m % 2 ^ (shift + 1)) (2 ^ (shift + 1)) then
          m / 2 ^ (shift + 1) + 1 else m / 2 ^ (shift + 1)) 0 := by
      simp only [floor, toWhole, hux, if_neg he]
      rfl
    have hquotient : (sign.apply m : ℚ) * 2 ^ (-(shift + 1 : Nat) : Int) =
        (sign.apply m : ℚ) / (2 ^ (shift + 1) : Nat) := by
      rw [zpow_neg, zpow_natCast, div_eq_mul_inv, Nat.cast_pow, Nat.cast_two]
    have hsmall : m / 2 ^ (shift + 1) ≤ m / 2 :=
      Nat.div_le_div_left (Nat.le_self_pow (by omega) 2) (by omega)
    have hlt := hcanonical.mantissa_lt
    rw [hfloor, value?_nearest (by split <;> omega) (by omega) (by omega),
      apply_down sign m (Nat.two_pow_pos _), hquotient, Rat.floor_intCast_div_natCast, zpow_zero,
      mul_one]

/-- Rounding down leaves the whole numbers as they are, and no others. -/
theorem floor_beq_iff (h : value? x = some p) :
    (floor x == x) = true ↔ ∃ whole : Int, p = whole := by
  rw [beq_iff_value (value?_floor h) h]
  constructor
  · intro hfloor
    exact ⟨⌊p⌋, hfloor.symm⟩
  · rintro ⟨whole, rfl⟩
    rw [Int.floor_intCast]

/-! ## Zero -/

theorem unpack_of_beq_zero (h : (x == 0) = true) : ∃ sign, x.toModel.unpack = .zero sign := by
  rcases (Float.beq_iff_ne_nan_and_eq.1 h).2.2 with rfl | ⟨rfl, -⟩ | ⟨rfl, -⟩
  · exact ⟨.positive, rfl⟩
  · exact ⟨.positive, rfl⟩
  · exact ⟨.negative, rfl⟩

/-- There is no remainder by zero. -/
theorem isNaN_remainder_of_beq_zero (x : Float) {y : Float} (h : (y == 0) = true) :
    (remainder x y).isNaN = true := by
  have hnan : (Float.ofModel (.pack .notANumber)).isNaN = true := rfl
  rcases unpack_of_beq_zero h with ⟨sign, hy⟩
  cases hx : x.toModel.unpack <;> simp only [remainder, hx, hy, hnan]

end Binary64

end Formula
