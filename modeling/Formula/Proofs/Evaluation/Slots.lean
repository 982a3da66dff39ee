import Formula.Expression.Evaluation

/-!
# Argument slots

The three slots of a call hold, below its number of arguments, exactly the values of
those arguments in order. A call is therefore its name applied to the list of the
values of its arguments, and no later proof has to look at the slots again.
-/

namespace Formula

namespace Slots

/-- The slots after a list of values has been put into them from `next` onward. -/
def place : List Float → Nat → Slots → Slots
  | [], _, slots => slots
  | value :: values, next, slots => place values (next + 1) (slots.setIfInBounds next value)

theorem toList_place {values : List Float} {next : Nat} (slots : Slots)
    (hfit : next + values.length ≤ 3) :
    (place values next slots).toList =
      slots.toList.take next ++ values ++ slots.toList.drop (next + values.length) := by
  induction values generalizing next slots with
  | nil => simp [place]
  | cons value values ih =>
      have hnext : next < slots.toList.length := by
        simp only [List.length_cons] at hfit
        simp only [Vector.length_toList]
        omega
      have htake :
          (slots.toList.set next value).take (next + 1) = slots.toList.take next ++ [value] := by
        rw [List.take_succ_eq_append_getElem (by simpa using hnext),
          List.take_set_of_le (Nat.le_refl _), List.getElem_set_self]
      have hdrop :
          (slots.toList.set next value).drop (next + 1 + values.length) =
            slots.toList.drop (next + (value :: values).length) := by
        rw [List.drop_set_of_lt (by omega), List.length_cons]
        congr 1
        omega
      rw [place, ih _ (by simp only [List.length_cons] at hfit; omega),
        Vector.toList_setIfInBounds, htake, hdrop]
      simp

theorem take_place_blank {values : List Float} (hfit : values.length ≤ 3) :
    (place values 0 blank).toList.take values.length = values := by
  rw [toList_place blank (by omega), List.take_zero, List.nil_append]
  exact List.take_left

theorem place_blank_zero {value : Float} {h : 0 < 3} : (place [value] 0 blank)[0] = value := rfl

end Slots

namespace Expression

/-- What a name makes of a list of values: its function's value, or the factorial of the first
value where no function has the name. -/
def applied (registry : Registry) (name : String) (values : List Float) :
    Except Failure Float :=
  match registry.function? name with
  | some function => function.call values
  | none =>
      match values.head?.bind Builtin.factorial? with
      | some result => .ok result
      | none => .error .undefinedFactorial

section

variable {registry : Registry} {name : String}

theorem applied_of_function {function : Function} {values : List Float}
    (hfunction : registry.function? name = some function) :
    applied registry name values = function.call values := by
  simp only [applied, hfunction]

theorem applied_of_factorial {value result : Float}
    (hfunction : registry.function? name = none)
    (hfactorial : Builtin.factorial? value = some result) :
    applied registry name [value] = .ok result := by
  simp only [applied, hfunction, List.head?_cons, Option.bind_some, hfactorial]

theorem applied_of_undefined {value : Float} (hfunction : registry.function? name = none)
    (hfactorial : Builtin.factorial? value = none) :
    applied registry name [value] = .error .undefinedFactorial := by
  simp only [applied, hfunction, List.head?_cons, Option.bind_some, hfactorial]

theorem calleeArity?_eq_some_iff {arity : Nat} :
    calleeArity? registry name = some arity ↔
      (∃ function, registry.function? name = some function ∧ function.arity = arity) ∨
        (registry.function? name = none ∧ name = Token.factorialMark ∧ arity = 1) := by
  unfold calleeArity?
  cases hfunction : registry.function? name with
  | some function => simp
  | none =>
      by_cases hname : name = Token.factorialMark <;> simp [hname, eq_comm]

theorem calleeArity?_of_function {function : Function}
    (hfunction : registry.function? name = some function) :
    calleeArity? registry name = some function.arity :=
  calleeArity?_eq_some_iff.2 (.inl ⟨function, hfunction, rfl⟩)

theorem calleeArity?_eq_none_iff :
    calleeArity? registry name = none ↔
      registry.function? name = none ∧ name ≠ Token.factorialMark := by
  unfold calleeArity?
  cases hfunction : registry.function? name with
  | some function => simp
  | none =>
      by_cases hname : name = Token.factorialMark <;> simp [hname]

/-- Applying a name to the slots of as many values as it takes is applying it to these values. -/
theorem invoke_place {values : List Float}
    (harity : calleeArity? registry name = some values.length) :
    invoke registry name values.length (Slots.place values 0 .blank) =
      applied registry name values := by
  rcases calleeArity?_eq_some_iff.mp harity with
    ⟨function, hfunction, hcount⟩ | ⟨hfunction, -, hcount⟩
  · have hfit : values.length ≤ 3 := by
      have hmax := function.arity_le_three
      omega
    rw [applied_of_function hfunction]
    simp only [invoke, hfunction]
    rw [Slots.take_place_blank hfit]
  · rcases List.length_eq_one_iff.mp hcount with ⟨value, rfl⟩
    cases hfactorial : Builtin.factorial? value with
    | none =>
        rw [applied_of_undefined hfunction hfactorial]
        simp only [invoke, hfunction, Slots.place_blank_zero, hfactorial]
    | some result =>
        rw [applied_of_factorial hfunction hfactorial]
        simp only [invoke, hfunction, Slots.place_blank_zero, hfactorial]

end

variable {registry : Registry} {bindings : Table Float}

/-- Filling the slots evaluates the arguments in order and puts their values in place. -/
theorem fill_eq_mapM (args : List Expression) (next : Nat) (slots : Slots) :
    fill registry bindings args next slots =
      (do
        let values ← args.mapM (evaluate registry bindings)
        return Slots.place values next slots) := by
  induction args generalizing next slots with
  | nil =>
      rw [fill, List.mapM_nil]
      rfl
  | cons arg args ih =>
      rw [fill, List.mapM_cons]
      cases hvalue : evaluate registry bindings arg with
      | error failure => rfl
      | ok value =>
          simp only [ih, bind_assoc, pure_bind]
          rfl

theorem length_of_mapM_eq_ok {args : List Expression} {values : List Float}
    (hvalues : args.mapM (evaluate registry bindings) = .ok values) :
    values.length = args.length := by
  induction args generalizing values with
  | nil =>
      cases hvalues
      rfl
  | cons arg args ih =>
      rw [List.mapM_cons] at hvalues
      cases hvalue : evaluate registry bindings arg with
      | error failure =>
          rw [hvalue] at hvalues
          cases hvalues
      | ok value =>
          cases hrest : args.mapM (evaluate registry bindings) with
          | error failure =>
              rw [hvalue, hrest] at hvalues
              cases hvalues
          | ok rest =>
              rw [hvalue, hrest] at hvalues
              cases hvalues
              simp [ih hrest]

theorem evaluate_call_of_arity {name : String} {args : List Expression}
    (harity : calleeArity? registry name = some args.length) :
    evaluate registry bindings (.call name args) =
      (do
        let values ← args.mapM (evaluate registry bindings)
        let value ← applied registry name values
        settle value) := by
  rw [evaluate, harity]
  simp only [ne_eq, not_true_eq_false, if_false, fill_eq_mapM, bind_assoc, pure_bind]
  cases hvalues : args.mapM (evaluate registry bindings) with
  | error failure => rfl
  | ok values =>
      have hlength := length_of_mapM_eq_ok hvalues
      rw [← hlength] at harity ⊢
      exact congrArg (· >>= settle) (invoke_place harity)

theorem evaluate_call_of_other_arity {name : String} {args : List Expression} {arity : Nat}
    (harity : calleeArity? registry name = some arity) (hcount : args.length ≠ arity) :
    evaluate registry bindings (.call name args) =
      .error (.argumentCount name arity args.length) := by
  rw [evaluate, harity]
  simp only [hcount, ne_eq, not_false_eq_true, if_true]

theorem evaluate_call_of_unknown {name : String} {args : List Expression}
    (harity : calleeArity? registry name = none) :
    evaluate registry bindings (.call name args) = .error (.unknownFunction name) := by
  rw [evaluate, harity]

end Expression

end Formula
