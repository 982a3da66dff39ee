import Formula.Builtin
import Formula.Proofs.Binary64.Order

/-!
# Holding a double between bounds

The lesser and the greater of two doubles are selected by one comparison each. It fails
where an operand is NaN, and the second operand is selected then. So of the operands of a
clamp only the upper bound can pass a NaN on, and the upper bound wins where the bounds
cross.
-/

namespace Formula

namespace Builtin

variable {x y bound lower upper : Float}

/-! ## Selections -/

theorem isNaN_lesser (x y : Float) : (lesser x y).isNaN = y.isNaN := by
  unfold lesser
  split
  · have hnumbers := Binary64.isNaN_of_lt ‹x < y›
    rw [hnumbers.1, hnumbers.2]
  · rfl

theorem lesser_le (hbound : bound.isNaN = false) (x : Float) : lesser x bound ≤ bound := by
  unfold lesser
  split
  · exact Binary64.le_of_lt ‹x < bound›
  · exact Binary64.le_refl hbound

theorem le_greater (hbound : bound.isNaN = false) (x : Float) : bound ≤ greater x bound := by
  unfold greater
  split
  · exact Binary64.le_of_lt ‹bound < x›
  · exact Binary64.le_refl hbound

theorem lesser_mono (hbound : bound.isNaN = false) (h : x ≤ y) :
    lesser x bound ≤ lesser y bound := by
  by_cases hy : y < bound
  · have hx : x < bound := Binary64.lt_of_le_of_lt h hy
    rw [lesser, if_pos hx, lesser, if_pos hy]
    exact h
  · have hselect : lesser y bound = bound := if_neg hy
    rw [hselect]
    exact lesser_le hbound x

theorem greater_mono (hbound : bound.isNaN = false) (h : x ≤ y) :
    greater x bound ≤ greater y bound := by
  by_cases hx : bound < x
  · have hy : bound < y := Binary64.lt_of_lt_of_le hx h
    rw [greater, if_pos hx, greater, if_pos hy]
    exact h
  · have hselect : greater x bound = bound := if_neg hx
    rw [hselect]
    exact le_greater hbound y

theorem greater_greater (x bound : Float) :
    greater (greater x bound) bound = greater x bound := by
  by_cases h : bound < x
  · have hselect : greater x bound = x := if_pos h
    rw [hselect, hselect]
  · have hselect : greater x bound = bound := if_neg h
    rw [hselect]
    exact if_neg (Binary64.lt_irrefl bound)

/-! ## Clamps -/

theorem clamp_of_lt (h : greater x lower < upper) : clamp x lower upper = greater x lower :=
  if_pos h

theorem clamp_of_not_lt (h : ¬ greater x lower < upper) : clamp x lower upper = upper :=
  if_neg h

theorem isNaN_clamp (x lower upper : Float) : (clamp x lower upper).isNaN = upper.isNaN :=
  isNaN_lesser (greater x lower) upper

theorem clamp_upper (lower upper : Float) : clamp upper lower upper = upper := by
  refine clamp_of_not_lt ?_
  by_cases h : lower < upper
  · have hselect : greater upper lower = upper := if_pos h
    rw [hselect]
    exact Binary64.lt_irrefl upper
  · have hselect : greater upper lower = lower := if_neg h
    rw [hselect]
    exact h

/-- What was held between two bounds is held there already. -/
theorem clamp_clamp (x lower upper : Float) :
    clamp (clamp x lower upper) lower upper = clamp x lower upper := by
  by_cases h : greater x lower < upper
  · have hheld : greater (greater x lower) lower < upper := by
      rw [greater_greater]
      exact h
    rw [clamp_of_lt h, clamp_of_lt hheld, greater_greater]
  · rw [clamp_of_not_lt h, clamp_upper]

theorem clamp_of_crossed (h : upper < lower) (x : Float) : clamp x lower upper = upper := by
  refine clamp_of_not_lt fun hheld => ?_
  have hlower := le_greater (Binary64.isNaN_of_lt h).2 x
  have hupper : lower < upper := Binary64.lt_of_le_of_lt hlower hheld
  exact Binary64.lt_irrefl lower (Binary64.lt_trans hupper h)

theorem lower_le_clamp (h : lower ≤ upper) (x : Float) : lower ≤ clamp x lower upper := by
  by_cases hheld : greater x lower < upper
  · rw [clamp_of_lt hheld]
    exact le_greater (Binary64.isNaN_of_le h).1 x
  · rw [clamp_of_not_lt hheld]
    exact h

theorem clamp_of_between (hlower : lower < x) (hupper : x < upper) :
    clamp x lower upper = x := by
  have hselect : greater x lower = x := if_pos hlower
  have hheld : greater x lower < upper := by rw [hselect]; exact hupper
  rw [clamp_of_lt hheld, hselect]

theorem clamp_mono (hlower : lower.isNaN = false) (hupper : upper.isNaN = false) (h : x ≤ y) :
    clamp x lower upper ≤ clamp y lower upper :=
  lesser_mono hupper (greater_mono hlower h)

/-- The builtin clamp on all doubles. Holding a result again changes no bit of it, and the
result is NaN only with the upper bound. Between ordered bounds the result is within them, and
is the operand itself where that lies strictly within; crossed bounds give the upper one.
Under bounds that are numbers or infinite the result rises with the operand. -/
theorem standard_clamp :
    Registry.standard.function? "clamp" = some (.ternary clamp) ∧
      ∀ lower upper : Float,
        (∀ x, (clamp (clamp x lower upper) lower upper).toBits = (clamp x lower upper).toBits ∧
          ((clamp x lower upper).isNaN = true ↔ upper.isNaN = true)) ∧
        (lower ≤ upper → ∀ x, lower ≤ clamp x lower upper ∧ clamp x lower upper ≤ upper ∧
          (lower < x → x < upper → clamp x lower upper = x)) ∧
        (upper < lower → ∀ x, clamp x lower upper = upper) ∧
        (lower.isNaN = false → upper.isNaN = false → ∀ x y, x ≤ y →
          clamp x lower upper ≤ clamp y lower upper) := by
  refine ⟨rfl, fun lower upper => ⟨?_, ?_, ?_, ?_⟩⟩
  · intro x
    rw [clamp_clamp, isNaN_clamp]
    exact ⟨rfl, Iff.rfl⟩
  · intro h x
    have hupper := (Binary64.isNaN_of_le h).2
    exact ⟨lower_le_clamp h x, lesser_le hupper (greater x lower), clamp_of_between⟩
  · exact clamp_of_crossed
  · intro hlower hupper x y h
    exact clamp_mono hlower hupper h

/-- Bounds of which the lower is the negative zero are ordered, and NaN is held between them. -/
theorem standard_clamp_zeros :
    (-0 : Float) ≤ 1 ∧ (-0 : Float) ≤ clamp Binary64.nan (-0) 1 := by
  have hbounds : (-0 : Float) ≤ 1 := by decide
  exact ⟨hbounds, ((standard_clamp.2 (-0) 1).2.1 hbounds Binary64.nan).1⟩

end Builtin

end Formula
