import Formula.Builtin
import Formula.Proofs.Binary64.Whole

/-!
# The capped factorial

Every factor of an ascending product is at least one, so a product that is infinite stays
infinite. It is so from 171 factors on: there the operand can be held down, and what is
left of it fits any word.
-/

namespace Formula

namespace Builtin

open Binary64 (value? infinity limit limit_pos Gives Rounds)

variable {x y : Float} {p q : ℚ} {m n : ℕ}

/-! ## Doubles from one on -/

/-- The double is infinite upward, or its number is at least one. -/
inductive FromOne (x : Float) : Prop
  | infinite (hx : x = infinity)
  | value {p : ℚ} (hx : value? x = some p) (hp : 1 ≤ p)

theorem fromOne_of_gives (h : Gives x q) (hq : 1 ≤ q) : FromOne x := by
  obtain ⟨r, hr, hholds⟩ := h
  have hone : Rounds 1 1 := .of_value? (show value? 1 = some 1 by decide +kernel)
  have hr : 1 ≤ r := hone.mono hr hq
  cases hholds with
  | value _ hx => exact .value hx hr
  | above _ hx => exact .infinite hx
  | below hrange => linarith [limit_pos]

theorem infinity_mul_of_fromOne (h : FromOne x) : infinity * x = infinity := by
  cases h with
  | infinite hx =>
      rw [hx]
      decide
  | value hx hp =>
      obtain ⟨_, _, _, hux⟩ := Binary64.unpack_of_pos hx (zero_lt_one.trans_le hp)
      rw [Binary64.mul_eq, hux]
      rfl

theorem FromOne.mul (hx : FromOne x) (hy : FromOne y) : FromOne (x * y) := by
  cases hx with
  | infinite hx =>
      rw [hx]
      exact .infinite (infinity_mul_of_fromOne hy)
  | value hx hp =>
      cases hy with
      | infinite hy =>
          rw [hy]
          exact .infinite (Binary64.mul_infinity hx (zero_lt_one.trans_le hp))
      | value hy hq =>
          exact fromOne_of_gives (Binary64.gives_mul hx hy) (one_le_mul_of_one_le_of_one_le hp hq)

theorem FromOne.isFinite_iff (h : FromOne x) : x.isFinite = true ↔ x ≠ infinity := by
  cases h with
  | infinite hx =>
      rw [hx]
      decide
  | value hx hp =>
      have hfinite : x.isFinite = true := by
        unfold Float.isFinite Float.Model.isFinite
        obtain ⟨_, _, _, hux⟩ := Binary64.unpack_of_pos hx (zero_lt_one.trans_le hp)
        rw [hux]
        rfl
      refine iff_of_true hfinite ?_
      rintro rfl
      cases hfinite

/-! ## Ascending products -/

theorem ascendingProduct_succ (n : ℕ) :
    ascendingProduct (n + 1) = ascendingProduct n * Float.ofNat (n + 1) := by
  unfold ascendingProduct
  rw [List.range_succ, List.foldl_append]
  rfl

theorem fromOne_factor (n : ℕ) : FromOne (Float.ofNat (n + 1)) :=
  fromOne_of_gives (Binary64.gives_ofNat (n + 1)) (by exact_mod_cast Nat.le_add_left 1 n)

theorem fromOne_ascendingProduct (n : ℕ) : FromOne (ascendingProduct n) := by
  induction n with
  | zero => exact .value (p := 1) (by decide +kernel) le_rfl
  | succ n ih =>
      rw [ascendingProduct_succ]
      exact ih.mul (fromOne_factor n)

/-- No further factor brings an infinite product back. -/
theorem ascendingProduct_of_le (h : ascendingProduct m = infinity) (hmn : m ≤ n) :
    ascendingProduct n = infinity := by
  induction n, hmn using Nat.le_induction with
  | base => exact h
  | succ n _ ih =>
      rw [ascendingProduct_succ, ih]
      exact infinity_mul_of_fromOne (fromOne_factor n)

theorem ascendingProduct_170 : ascendingProduct 170 = 7.257415615307994e306 := by decide +kernel

/-- The 171st factor is the one with which the product overflows. -/
theorem ascendingProduct_eq_infinity_iff : ascendingProduct n = infinity ↔ 171 ≤ n := by
  constructor
  · intro h
    by_contra hlt
    have hlast : ascendingProduct 170 = infinity := ascendingProduct_of_le h (by omega)
    rw [ascendingProduct_170] at hlast
    exact absurd hlast (by decide +kernel)
  · have hfirst : ascendingProduct 171 = infinity := by
      rw [ascendingProduct_succ, ascendingProduct_170]
      decide +kernel
    exact ascendingProduct_of_le hfirst

theorem isFinite_ascendingProduct_iff : (ascendingProduct n).isFinite = true ↔ n ≤ 170 := by
  rw [(fromOne_ascendingProduct n).isFinite_iff, Ne, ascendingProduct_eq_infinity_iff]
  omega

/-- Factors past the 171st change nothing. -/
theorem ascendingProduct_min (n : ℕ) : ascendingProduct (min n 171) = ascendingProduct n := by
  obtain h | h := Nat.le_total n 171
  · rw [Nat.min_eq_left h]
  · rw [Nat.min_eq_right h, ascendingProduct_eq_infinity_iff.2 le_rfl,
      ascendingProduct_eq_infinity_iff.2 h]

/-! ## Operands -/

theorem factorial?_eq_none_iff (h : value? x = some p) :
    factorial? x = none ↔ p < 0 ∨ ∀ whole : ℤ, p ≠ whole := by
  have hnegative := Binary64.lt_iff_value h (show value? 0 = some 0 from rfl)
  have hwhole := Binary64.floor_beq_iff h
  rw [← hnegative, ← not_exists, ← hwhole]
  unfold factorial?
  by_cases hlt : x < 0 <;> cases hfloor : Binary64.floor x == x <;> simp [hlt, hfloor, bne]

theorem factorial?_of_whole (hx : ¬ x < 0) (hfloor : (Binary64.floor x == x) = true) :
    factorial? x = some (ascendingProduct (Binary64.wholePart (lesser x 171))) := by
  unfold factorial?
  simp only [hx, bne, hfloor]
  rfl

theorem value?_lesser (hx : value? x = some p) (hy : value? y = some q) :
    value? (lesser x y) = some (min p q) := by
  unfold lesser
  split
  · have hpq := (Binary64.lt_iff_value hx hy).1 ‹x < y›
    rw [min_eq_left hpq.le, hx]
  · have hqp := not_lt.1 (mt (Binary64.lt_iff_value hx hy).2 ‹¬ x < y›)
    rw [min_eq_right hqp, hy]

theorem value?_cap : value? 171 = some ((171 : ℕ) : ℚ) := by decide +kernel

theorem value?_capped (h : value? x = some (n : ℚ)) :
    value? (lesser x 171) = some ((min n 171 : ℕ) : ℚ) := by
  rw [value?_lesser h value?_cap]
  push_cast
  rfl

theorem factorial?_natCast (h : value? x = some (n : ℚ)) :
    factorial? x = some (ascendingProduct n) := by
  have hx : ¬ x < 0 := by
    rw [Binary64.lt_iff_value h (show value? 0 = some 0 from rfl)]
    exact (Nat.cast_nonneg n).not_gt
  have hfloor : (Binary64.floor x == x) = true :=
    (Binary64.floor_beq_iff h).2 ⟨n, (Int.cast_natCast n).symm⟩
  rw [factorial?_of_whole hx hfloor, Binary64.wholePart_of_value? (value?_capped h),
    ascendingProduct_min]

theorem lesser_infinity_cap : lesser infinity 171 = 171 := by decide

/-- Infinity is whole and held down to 171. -/
theorem factorial?_infinity : factorial? infinity = some infinity := by
  have hresult := factorial?_of_whole (x := infinity) (by decide) (by decide)
  rw [lesser_infinity_cap, Binary64.wholePart_of_value? value?_cap,
    ascendingProduct_eq_infinity_iff.2 le_rfl] at hresult
  exact hresult

theorem factorial?_undefined_iff (x : Float) :
    factorial? x = none ↔
      x.isNaN = true ∨ x < 0 ∨ ∃ p, value? x = some p ∧ ∀ whole : ℤ, p ≠ whole := by
  obtain hnan | rfl | rfl | ⟨p, hp⟩ := Binary64.double_cases x
  · refine iff_of_true ?_ (.inl hnan)
    rw [Float.isNaN_eq_decide_eq_nan, decide_eq_true_eq] at hnan
    rw [hnan]
    decide
  · rw [factorial?_infinity]
    refine iff_of_false (Option.some_ne_none _) ?_
    rintro (hnan | hneg | ⟨p, hp, -⟩)
    · exact absurd hnan (by decide)
    · exact absurd hneg (by decide)
    · cases hp
  · exact iff_of_true (by decide) (.inr (.inl (by decide)))
  · rw [factorial?_eq_none_iff hp, Binary64.lt_iff_value hp (show value? 0 = some 0 from rfl)]
    constructor
    · exact fun h => .inr (h.imp_right fun hwhole => ⟨p, hp, hwhole⟩)
    · rintro (hnan | hneg | ⟨q, hq, hwhole⟩)
      · rw [Float.isNaN_eq_decide_eq_nan, decide_eq_true_eq] at hnan
        rw [hnan] at hp
        cases hp
      · exact .inl hneg
      · obtain rfl : p = q := Option.some.inj (hp.symm.trans hq)
        exact .inr hwhole

/-- Only natural numbers and infinity have a factorial. -/
theorem operand_of_factorial? {result : Float} (h : factorial? x = some result) :
    (∃ n : ℕ, value? x = some (n : ℚ)) ∨ x = infinity := by
  obtain hnan | hx | rfl | ⟨p, hp⟩ := Binary64.double_cases x
  · rw [(factorial?_undefined_iff x).2 (.inl hnan)] at h
    cases h
  · exact .inr hx
  · have hnone : factorial? (-infinity) = none := by decide
    rw [hnone] at h
    cases h
  · have hdefined : ¬ (p < 0 ∨ ∀ whole : ℤ, p ≠ whole) := by
      rw [← factorial?_eq_none_iff hp, h]
      exact Option.some_ne_none result
    obtain ⟨hpos, hwhole⟩ := not_or.1 hdefined
    obtain ⟨whole, rfl⟩ : ∃ whole : ℤ, p = whole := by simpa using hwhole
    obtain ⟨n, rfl⟩ := Int.eq_ofNat_of_zero_le (Int.cast_nonneg_iff.1 (not_lt.1 hpos))
    exact .inl ⟨n, hp⟩

/-- The factorial on all doubles. There is none of NaN, of a negative operand and of a number
that is not whole; what is left are the natural numbers and infinity. Of the natural number
`n` it is the product of the first `n` factors, with no cap, and finite up to 170; the operand
that is held down to 171 is `min n 171` exactly, as a natural number and as a word. Of
infinity it is infinity. -/
theorem factorial?_uncapped (x : Float) :
    (factorial? x = none ↔
        x.isNaN = true ∨ x < 0 ∨ ∃ p, value? x = some p ∧ ∀ whole : ℤ, p ≠ whole) ∧
      (∀ result, factorial? x = some result →
        (∃ n : ℕ, value? x = some (n : ℚ)) ∨ x = infinity) ∧
      (∀ n : ℕ, value? x = some (n : ℚ) →
        factorial? x = some (ascendingProduct n) ∧
        Binary64.wholePart (lesser x 171) = min n 171 ∧
        (lesser x 171).toUInt32.toNat = min n 171 ∧
        ((ascendingProduct n).isFinite = true ↔ n ≤ 170) ∧
        (ascendingProduct n = infinity ↔ 171 ≤ n)) ∧
      (x = infinity → factorial? x = some infinity ∧ (lesser x 171).toUInt32.toNat = 171) := by
  refine ⟨factorial?_undefined_iff x, fun _ => operand_of_factorial?, fun n h => ?_, ?_⟩
  · have hcapped := value?_capped h
    exact ⟨factorial?_natCast h, Binary64.wholePart_of_value? hcapped,
      Binary64.toUInt32_of_value? hcapped (by omega), isFinite_ascendingProduct_iff,
      ascendingProduct_eq_infinity_iff⟩
  · rintro rfl
    rw [lesser_infinity_cap]
    exact ⟨factorial?_infinity, Binary64.toUInt32_of_value? value?_cap (by decide)⟩

/-- The factorial of `10 ^ 9` is the product of all its factors, and infinite. -/
theorem factorial?_uncapped_billion :
    value? 1e9 = some ((10 ^ 9 : ℕ) : ℚ) ∧ factorial? 1e9 = some (ascendingProduct (10 ^ 9)) ∧
      ascendingProduct (10 ^ 9) = infinity := by
  have hvalue : value? 1e9 = some ((10 ^ 9 : ℕ) : ℚ) := by decide +kernel
  obtain ⟨hresult, -, -, -, hinfinite⟩ := (factorial?_uncapped 1e9).2.2.1 (10 ^ 9) hvalue
  exact ⟨hvalue, hresult, hinfinite.2 (by decide)⟩

end Builtin

end Formula
