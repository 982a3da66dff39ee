import Formula.Proofs.Builtin.Factorial
import Formula.Proofs.Evaluation.Faults

/-!
# Two spellings of one operation

The power, the remainder and the factorial have a mark and a builtin name each, and some
builtins have two names. The two spellings run through different checks. Their outcomes
differ in wording only, apart from the operands that a mark refuses by itself.
-/

namespace Formula

namespace Expression

variable {registry : Registry} {bindings : Table Float} {name : String}

/-! ## Calls by arity -/

theorem evaluate_unary_call {run : Float → Float}
    (h : registry.function? name = some (.unary run)) (a : Expression) :
    evaluate registry bindings (.call name [a]) =
      (do
        let x ← evaluate registry bindings a
        settle (run x)) := by
  rw [evaluate_call_of_arity (calleeArity?_of_function h), List.mapM_cons, List.mapM_nil]
  simp only [applied_of_function h, pure_bind, bind_assoc]
  rfl

theorem evaluate_binary_call {run : Float → Float → Float}
    (h : registry.function? name = some (.binary run)) (a b : Expression) :
    evaluate registry bindings (.call name [a, b]) =
      (do
        let x ← evaluate registry bindings a
        let y ← evaluate registry bindings b
        settle (run x y)) := by
  rw [evaluate_call_of_arity (calleeArity?_of_function h)]
  simp only [List.mapM_cons, List.mapM_nil, applied_of_function h, pure_bind, bind_assoc]
  rfl

theorem evaluate_ternary_call {run : Float → Float → Float → Float}
    (h : registry.function? name = some (.ternary run)) (a b c : Expression) :
    evaluate registry bindings (.call name [a, b, c]) =
      (do
        let x ← evaluate registry bindings a
        let y ← evaluate registry bindings b
        let z ← evaluate registry bindings c
        settle (run x y z)) := by
  rw [evaluate_call_of_arity (calleeArity?_of_function h)]
  simp only [List.mapM_cons, List.mapM_nil, applied_of_function h, pure_bind, bind_assoc]
  rfl

theorem evaluate_factorial_call (h : registry.function? Token.factorialMark = none)
    (a : Expression) :
    evaluate registry bindings (.call Token.factorialMark [a]) =
      (do
        let x ← evaluate registry bindings a
        let result ← applied registry Token.factorialMark [x]
        settle result) := by
  have harity : calleeArity? registry Token.factorialMark = some 1 :=
    calleeArity?_eq_some_iff.2 (.inr ⟨h, rfl, rfl⟩)
  rw [evaluate_call_of_arity harity]
  simp only [List.mapM_cons, List.mapM_nil, pure_bind, bind_assoc]

/-! ## Outcomes up to their wording -/

/-- An outcome without its wording: the value, or the class of the failure. -/
def classified (outcome : Except Failure Float) : Except FailureCode Float :=
  outcome.mapError Failure.code

/-- Two outcomes differ in wording only, except in one event. In that event both are failures,
each of its own class. -/
structure AgreeExcept (event : Prop) (first second : Except Failure Float)
    (firstClass secondClass : FailureCode) : Prop where
  apart : event →
    classified first = .error firstClass ∧ classified second = .error secondClass
  alike : ¬event → classified first = classified second

theorem classified_bind_congr {result : Except Failure Float}
    {next other : Float → Except Failure Float}
    (h : ∀ value, result = .ok value → classified (next value) = classified (other value)) :
    classified (result >>= next) = classified (result >>= other) := by
  cases result with
  | error failure => rfl
  | ok value => exact h value rfl

/-- The power mark refuses the bases for which the builtin is not a number. -/
theorem power_spellings (hpow : registry.function? "pow" = some (.binary Builtin.power))
    (a b : Expression) :
    classified (evaluate registry bindings (.binary .power a b)) =
      classified (evaluate registry bindings (.call "pow" [a, b])) := by
  rw [evaluate_binary_call hpow, evaluate]
  refine classified_bind_congr fun base _ => classified_bind_congr fun exponent _ => ?_
  by_cases hnegative : base < 0
  · simp only [Operator.apply, Builtin.power, if_pos hnegative]
    rfl
  · simp only [Operator.apply, Builtin.power, if_neg hnegative]
    rfl

/-- Both operands of a remainder have values, and the divisor is zero. -/
def DividesByZero (registry : Registry) (bindings : Table Float) (a b : Expression) : Prop :=
  ∃ dividend divisor, evaluate registry bindings a = .ok dividend ∧
    evaluate registry bindings b = .ok divisor ∧ (divisor == 0) = true

theorem remainder_spellings
    (hmod : registry.function? "mod" = some (.binary Binary64.remainder)) (a b : Expression) :
    AgreeExcept (DividesByZero registry bindings a b)
      (evaluate registry bindings (.binary .remainder a b))
      (evaluate registry bindings (.call "mod" [a, b])) .divisionByZero .notANumber := by
  rw [evaluate_binary_call hmod, evaluate]
  constructor
  · rintro ⟨dividend, divisor, ha, hb, hzero⟩
    have hnan := Binary64.isNaN_remainder_of_beq_zero dividend hzero
    rw [ha, hb]
    constructor
    · change classified (Operator.remainder.apply dividend divisor >>= settle) = _
      simp only [Operator.apply, if_pos hzero]
      rfl
    · change classified (settle (Binary64.remainder dividend divisor)) = _
      rw [settle_of_isNaN hnan]
      rfl
  · intro hevent
    refine classified_bind_congr fun dividend ha => classified_bind_congr fun divisor hb => ?_
    have hnonzero : ¬(divisor == 0) = true := fun hzero =>
      hevent ⟨dividend, divisor, ha, hb, hzero⟩
    simp only [Operator.apply, if_neg hnonzero]
    rfl

/-- A zero divisor counts with either sign. -/
example : DividesByZero .standard .empty (.number 1) (.number (-0)) :=
  ⟨1, -0, by rw [evaluate]; rfl, by rw [evaluate]; rfl, rfl⟩

/-- The operand of a factorial has a value, but a negative one or one that is not whole. -/
def OutsideFactorial (registry : Registry) (bindings : Table Float) (a : Expression) : Prop :=
  ∃ x number, evaluate registry bindings a = .ok x ∧ Binary64.value? x = some number ∧
    (number < 0 ∨ ∀ whole : Int, number ≠ whole)

theorem factorial_spellings (hmark : registry.function? Token.factorialMark = none)
    (hfact : registry.function? "fact" = some (.unary Builtin.factorial)) (a : Expression) :
    AgreeExcept (OutsideFactorial registry bindings a)
      (evaluate registry bindings (.call Token.factorialMark [a]))
      (evaluate registry bindings (.call "fact" [a])) .malformed .notANumber := by
  rw [evaluate_unary_call hfact, evaluate_factorial_call hmark]
  constructor
  · rintro ⟨x, number, ha, hnumber, houtside⟩
    have hnone := (Builtin.factorial?_eq_none_iff hnumber).2 houtside
    have hfactorial : Builtin.factorial x = Binary64.nan := by
      rw [Builtin.factorial, hnone, Option.getD_none]
    rw [ha]
    constructor
    · change classified (applied registry Token.factorialMark [x] >>= settle) = _
      rw [applied_of_undefined hmark hnone]
      rfl
    · change classified (settle (Builtin.factorial x)) = _
      rw [hfactorial]
      rfl
  · intro hevent
    refine classified_bind_congr fun x ha => ?_
    have hfinite := isFinite_of_evaluate_eq_ok ha
    rcases Binary64.exists_value? hfinite.1 hfinite.2 with ⟨number, hnumber⟩
    cases hresult : Builtin.factorial? x with
    | none =>
        have houtside := (Builtin.factorial?_eq_none_iff hnumber).1 hresult
        exact absurd ⟨x, number, ha, hnumber, houtside⟩ hevent
    | some result =>
        rw [applied_of_factorial hmark hresult, Builtin.factorial, hresult]
        rfl

theorem saturate_spellings
    (hsaturate : registry.function? "saturate" = some (.unary Builtin.saturate))
    (hclamp : registry.function? "clamp" = some (.ternary Builtin.clamp)) (a : Expression) :
    evaluate registry bindings (.call "saturate" [a]) =
      evaluate registry bindings (.call "clamp" [a, .number 0, .number 1]) := by
  have hzero : evaluate registry bindings (.number 0) = .ok 0 := by
    rw [evaluate]
    rfl
  have hone : evaluate registry bindings (.number 1) = .ok 1 := by
    rw [evaluate]
    rfl
  rw [evaluate_unary_call hsaturate, evaluate_ternary_call hclamp, hzero, hone]
  rfl

/-- Two spellings of an operation agree on all operands under the builtin registry. -/
theorem standard_spellings_agree (bindings : Table Float) (a b c : Expression) :
    classified (evaluate .standard bindings (.binary .power a b)) =
        classified (evaluate .standard bindings (.call "pow" [a, b])) ∧
      AgreeExcept (DividesByZero .standard bindings a b)
        (evaluate .standard bindings (.binary .remainder a b))
        (evaluate .standard bindings (.call "mod" [a, b])) .divisionByZero .notANumber ∧
      AgreeExcept (OutsideFactorial .standard bindings a)
        (evaluate .standard bindings (.call Token.factorialMark [a]))
        (evaluate .standard bindings (.call "fact" [a])) .malformed .notANumber ∧
      evaluate .standard bindings (.call "saturate" [a]) =
        evaluate .standard bindings (.call "clamp" [a, .number 0, .number 1]) ∧
      evaluate .standard bindings (.call "lerp" [a, b, c]) =
        evaluate .standard bindings (.call "mix" [a, b, c]) ∧
      evaluate .standard bindings (.call "log" [a]) =
        evaluate .standard bindings (.call "ln" [a]) := by
  have hmark : Registry.standard.function? Token.factorialMark = none := by decide
  have hlerp : Registry.standard.function? "lerp" = some (.ternary Builtin.mix) := rfl
  have hmix : Registry.standard.function? "mix" = some (.ternary Builtin.mix) := rfl
  have hlog : Registry.standard.function? "log" = some (.unary Float.log) := rfl
  have hln : Registry.standard.function? "ln" = some (.unary Float.log) := rfl
  refine ⟨power_spellings rfl a b, remainder_spellings rfl a b, factorial_spellings hmark rfl a,
    saturate_spellings rfl rfl a, ?_, ?_⟩
  · rw [evaluate_ternary_call hlerp, evaluate_ternary_call hmix]
  · rw [evaluate_unary_call hlog, evaluate_unary_call hln]

end Expression

end Formula
