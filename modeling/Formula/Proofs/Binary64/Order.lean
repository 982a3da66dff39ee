import Formula.Proofs.Binary64.Arithmetic

/-!
# The order of doubles

A double other than NaN has a place among the rational numbers and the two infinities, and
doubles compare as their places do. The two zeros share a place, so the comparison is a
total preorder of these doubles; with NaN every comparison fails.
-/

namespace Formula

namespace Binary64

open Float.Model (UnpackedFloat)
open Float.Model.UnpackedFloat (Sign)

/-- The place of the number `value`. -/
def placeOf (value : ℚ) : WithBot (WithTop ℚ) :=
  (value : WithTop ℚ)

/-- The place of an infinity. -/
def infinitePlace : Sign → WithBot (WithTop ℚ)
  | .positive => ⊤
  | .negative => ⊥

/-- Where a double stands among the rational numbers and the two infinities. -/
def place? (x : Float) : Option (WithBot (WithTop ℚ)) :=
  match x.toModel.unpack with
  | .notANumber => none
  | .infinity sign => some (infinitePlace sign)
  | .zero _ => some (placeOf 0)
  | .finite sign mantissa exponent _ => some (placeOf (sign.apply mantissa * 2 ^ exponent))

variable {x y z : Float} {p q r : WithBot (WithTop ℚ)}

theorem isNaN_eq_isNone_place? (x : Float) : x.isNaN = (place? x).isNone := by
  unfold place? Float.isNaN Float.Model.isNaN
  cases x.toModel.unpack <;> rfl

theorem exists_place? (h : x.isNaN = false) : ∃ p, place? x = some p := by
  rw [isNaN_eq_isNone_place?, Option.isNone_eq_false_iff] at h
  exact Option.isSome_iff_exists.1 h

theorem unpack_of_place? (h : place? x = some p) :
    (∃ sign, x.toModel.unpack = .infinity sign ∧ p = infinitePlace sign) ∨
      ∃ value, value? x = some value ∧ p = placeOf value := by
  unfold place? at h
  cases hx : x.toModel.unpack with
  | notANumber =>
      rw [hx] at h
      cases h
  | infinity sign =>
      rw [hx] at h
      exact .inl ⟨sign, rfl, (Option.some.inj h).symm⟩
  | zero sign =>
      rw [hx] at h
      exact .inr ⟨0, by simp only [value?, hx], (Option.some.inj h).symm⟩
  | finite sign mantissa exponent hpos =>
      rw [hx] at h
      exact .inr ⟨_, by simp only [value?, hx], (Option.some.inj h).symm⟩

/-! ## Comparison -/

theorem compare_infinity {value : ℚ} (h : value? x = some value) (sign : Sign) :
    ∃ order : Ordering, x.toModel.unpack.compare (.infinity sign) = some order ∧
      (UnpackedFloat.infinity sign).compare x.toModel.unpack = some order.swap ∧
      order.Compares (placeOf value) (infinitePlace sign) := by
  rcases unpack_of_value? h with ⟨_, hx, -⟩ | ⟨_, _, _, _, hx, -, -⟩ <;> rw [hx] <;>
    cases sign with
    | positive => exact ⟨.lt, rfl, rfl, WithBot.coe_lt_coe.2 (WithTop.coe_lt_top _)⟩
    | negative => exact ⟨.gt, rfl, rfl, WithBot.bot_lt_coe _⟩

theorem compares_placeOf {order : Ordering} {a b : ℚ} (h : order.Compares a b) :
    order.Compares (placeOf a) (placeOf b) := by
  cases order with
  | lt => exact WithBot.coe_lt_coe.2 (WithTop.coe_lt_coe.2 h)
  | eq => exact congrArg placeOf h
  | gt => exact WithBot.coe_lt_coe.2 (WithTop.coe_lt_coe.2 h)

/-- Doubles compare as their places do. -/
theorem compares_place (hx : place? x = some p) (hy : place? y = some q) :
    ∃ order : Ordering, x.toModel.unpack.compare y.toModel.unpack = some order ∧
      order.Compares p q := by
  rcases unpack_of_place? hx with ⟨s, hux, rfl⟩ | ⟨a, ha, rfl⟩
  · rcases unpack_of_place? hy with ⟨t, huy, rfl⟩ | ⟨b, hb, rfl⟩
    · rw [hux, huy]
      cases s with
      | positive => cases t with
        | positive => exact ⟨.eq, rfl, rfl⟩
        | negative => exact ⟨.gt, rfl, WithBot.bot_lt_coe _⟩
      | negative => cases t with
        | positive => exact ⟨.lt, rfl, WithBot.bot_lt_coe _⟩
        | negative => exact ⟨.eq, rfl, rfl⟩
    · obtain ⟨order, -, hcompare, hplaces⟩ := compare_infinity hb s
      rw [hux]
      exact ⟨order.swap, hcompare, Ordering.compares_swap.2 hplaces⟩
  · rcases unpack_of_place? hy with ⟨t, huy, rfl⟩ | ⟨b, hb, rfl⟩
    · obtain ⟨order, hcompare, -, hplaces⟩ := compare_infinity ha t
      rw [huy]
      exact ⟨order, hcompare, hplaces⟩
    · obtain ⟨order, hcompare, hvalues⟩ := compares_value ha hb
      exact ⟨order, hcompare, compares_placeOf hvalues⟩

theorem lt_iff_place (hx : place? x = some p) (hy : place? y = some q) : x < y ↔ p < q := by
  obtain ⟨order, hcompare, hplaces⟩ := compares_place hx hy
  rw [lt_iff_compare, hcompare, Option.some_inj]
  exact hplaces.eq_lt

theorem le_iff_place (hx : place? x = some p) (hy : place? y = some q) : x ≤ y ↔ p ≤ q := by
  obtain ⟨order, hcompare, hplaces⟩ := compares_place hx hy
  rw [le_iff_compare, hcompare, Option.any_some, Ordering.isLE_iff_ne_gt]
  exact hplaces.ne_gt

theorem unpack_of_place?_eq_none (h : place? x = none) : x.toModel.unpack = .notANumber := by
  unfold place? at h
  cases hx : x.toModel.unpack with
  | notANumber => rfl
  | infinity | zero | finite =>
      rw [hx] at h
      cases h

/-- Only doubles with a place compare. -/
theorem exists_places_of_compare {order : Ordering}
    (h : x.toModel.unpack.compare y.toModel.unpack = some order) :
    ∃ p q, place? x = some p ∧ place? y = some q := by
  cases hx : place? x with
  | none =>
      rw [unpack_of_place?_eq_none hx] at h
      cases h
  | some p =>
      cases hy : place? y with
      | none =>
          rw [unpack_of_place?_eq_none hy] at h
          cases hux : x.toModel.unpack <;> rw [hux] at h <;> cases h
      | some q => exact ⟨p, q, rfl, rfl⟩

theorem exists_places_of_lt (h : x < y) :
    ∃ p q, place? x = some p ∧ place? y = some q ∧ p < q := by
  obtain ⟨p, q, hx, hy⟩ := exists_places_of_compare (lt_iff_compare.1 h)
  exact ⟨p, q, hx, hy, (lt_iff_place hx hy).1 h⟩

theorem exists_places_of_le (h : x ≤ y) :
    ∃ p q, place? x = some p ∧ place? y = some q ∧ p ≤ q := by
  obtain ⟨order, hcompare, -⟩ := (Option.any_eq_true _ _).1 (le_iff_compare.1 h)
  obtain ⟨p, q, hx, hy⟩ := exists_places_of_compare hcompare
  exact ⟨p, q, hx, hy, (le_iff_place hx hy).1 h⟩

/-! ## The total preorder -/

theorem isNaN_eq_false_of_place? (h : place? x = some p) : x.isNaN = false := by
  rw [isNaN_eq_isNone_place?, h]
  rfl

theorem isNaN_of_lt (h : x < y) : x.isNaN = false ∧ y.isNaN = false := by
  obtain ⟨p, q, hx, hy, -⟩ := exists_places_of_lt h
  exact ⟨isNaN_eq_false_of_place? hx, isNaN_eq_false_of_place? hy⟩

theorem isNaN_of_le (h : x ≤ y) : x.isNaN = false ∧ y.isNaN = false := by
  obtain ⟨p, q, hx, hy, -⟩ := exists_places_of_le h
  exact ⟨isNaN_eq_false_of_place? hx, isNaN_eq_false_of_place? hy⟩

protected theorem lt_irrefl (x : Float) : ¬ x < x := by
  intro h
  obtain ⟨p, q, hx, hx', hlt⟩ := exists_places_of_lt h
  obtain rfl : p = q := Option.some.inj (hx.symm.trans hx')
  exact lt_irrefl p hlt

protected theorem lt_trans (hxy : x < y) (hyz : y < z) : x < z := by
  obtain ⟨p, q, hx, hy, hpq⟩ := exists_places_of_lt hxy
  obtain ⟨q', r, hy', hz, hqr⟩ := exists_places_of_lt hyz
  obtain rfl : q = q' := Option.some.inj (hy.symm.trans hy')
  exact (lt_iff_place hx hz).2 (hpq.trans hqr)

protected theorem le_of_lt (h : x < y) : x ≤ y := by
  obtain ⟨p, q, hx, hy, hlt⟩ := exists_places_of_lt h
  exact (le_iff_place hx hy).2 hlt.le

protected theorem lt_of_le_of_lt (hxy : x ≤ y) (hyz : y < z) : x < z := by
  obtain ⟨p, q, hx, hy, hpq⟩ := exists_places_of_le hxy
  obtain ⟨q', r, hy', hz, hqr⟩ := exists_places_of_lt hyz
  obtain rfl : q = q' := Option.some.inj (hy.symm.trans hy')
  exact (lt_iff_place hx hz).2 (hpq.trans_lt hqr)

protected theorem lt_of_lt_of_le (hxy : x < y) (hyz : y ≤ z) : x < z := by
  obtain ⟨p, q, hx, hy, hpq⟩ := exists_places_of_lt hxy
  obtain ⟨q', r, hy', hz, hqr⟩ := exists_places_of_le hyz
  obtain rfl : q = q' := Option.some.inj (hy.symm.trans hy')
  exact (lt_iff_place hx hz).2 (hpq.trans_le hqr)

/-- Between two doubles with a place one of the two comparisons holds. -/
protected theorem not_lt (hx : x.isNaN = false) (hy : y.isNaN = false) : ¬ x < y ↔ y ≤ x := by
  obtain ⟨p, hp⟩ := exists_place? hx
  obtain ⟨q, hq⟩ := exists_place? hy
  rw [lt_iff_place hp hq, le_iff_place hq hp, not_lt]

protected theorem le_refl (h : x.isNaN = false) : x ≤ x :=
  (Binary64.not_lt h h).1 (Binary64.lt_irrefl x)

end Binary64

end Formula
