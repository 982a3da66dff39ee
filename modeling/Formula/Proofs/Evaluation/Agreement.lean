import Formula.Proofs.Evaluation.Reference
import Formula.Proofs.Evaluation.Slots

/-!
# Agreement with the reference

An evaluation returns the unchecked value of its tree when every node passes its
checks, and else the failure of the first check that does not pass.
-/

namespace Formula

namespace Operator

theorem apply_eq (operator : Operator) (left right : Float) :
    operator.apply left right =
      match operator.refusal? left right with
      | some failure => .error failure
      | none => .ok (operator.uncheckedValue left right) := by
  cases operator with
  | add => rfl
  | subtract => rfl
  | multiply => rfl
  | divide =>
      simp only [apply, refusal?, uncheckedValue]
      split <;> rfl
  | remainder =>
      simp only [apply, refusal?, uncheckedValue]
      split <;> rfl
  | power =>
      simp only [apply, refusal?, uncheckedValue]
      split <;> rfl

end Operator

theorem Function.exists_call_eq {function : Function} {values : List Float}
    (hcount : values.length = function.arity) :
    ∃ value, function.call values = .ok value ∧ function.uncheckedValue? values = some value := by
  match function, values, hcount with
  | .unary run, [a], _ => exact ⟨run a, rfl, rfl⟩
  | .binary run, [a, b], _ => exact ⟨run a b, rfl, rfl⟩
  | .ternary run, [a, b, c], _ => exact ⟨run a b c, rfl, rfl⟩

/-! ## Results and lists of checks -/

/-- A result agrees with a list of checks and a value: it is that value and every check
passes, or it is the failure of the first check that does not. -/
def Agrees {α : Type} (result : Except Failure α) (checks : List Check)
    (value? : Option α) : Prop :=
  match result with
  | .ok value => (∀ check ∈ checks, check = none) ∧ value? = some value
  | .error failure => Check.firstFailure? checks = some failure

namespace Check

theorem firstFailure?_cons_some (failure : Failure) (checks : List Check) :
    firstFailure? (some failure :: checks) = some failure := rfl

theorem firstFailure?_append (first second : List Check) :
    firstFailure? (first ++ second) = (firstFailure? first).or (firstFailure? second) := by
  simp only [firstFailure?, List.findSome?_append]

theorem firstFailure?_eq_none_iff {checks : List Check} :
    firstFailure? checks = none ↔ ∀ check ∈ checks, check = none := by
  simp only [firstFailure?, List.findSome?_eq_none_iff, id_eq]

end Check

namespace Agrees

variable {α β : Type}

theorem ok {value : α} : Agrees (.ok value) [] (some value) := by
  refine ⟨?_, rfl⟩
  simp

theorem error {failure : Failure} {checks : List Check} {value? : Option α} :
    Agrees (.error failure) (some failure :: checks) value? :=
  Check.firstFailure?_cons_some failure checks

theorem cons_none {result : Except Failure α} {checks : List Check} {value? : Option α}
    (h : Agrees result checks value?) : Agrees result (none :: checks) value? := by
  cases result with
  | ok value =>
      rcases h with ⟨hpass, hvalue⟩
      refine ⟨?_, hvalue⟩
      intro check hmem
      rcases List.mem_cons.mp hmem with rfl | hmem
      · rfl
      · exact hpass check hmem
  | error failure => exact h

/-- The checks of a continuation come after those of the result it continues. -/
theorem bind {result : Except Failure α} {next : α → Except Failure β}
    {first second : List Check} {value? : Option α} {target? : Option β}
    (h : Agrees result first value?)
    (hnext : ∀ value, value? = some value → Agrees (next value) second target?) :
    Agrees (result >>= next) (first ++ second) target? := by
  cases result with
  | error failure =>
      have hfirst : Check.firstFailure? first = some failure := h
      change Check.firstFailure? (first ++ second) = some failure
      rw [Check.firstFailure?_append, hfirst]
      rfl
  | ok value =>
      rcases h with ⟨hpass, hvalue⟩
      have hagrees := hnext value hvalue
      change Agrees (next value) (first ++ second) target?
      cases hresult : next value with
      | ok target =>
          rw [hresult] at hagrees
          rcases hagrees with ⟨hrest, htarget⟩
          refine ⟨?_, htarget⟩
          intro check hmem
          rcases List.mem_append.mp hmem with hmem | hmem
          · exact hpass check hmem
          · exact hrest check hmem
      | error failure =>
          rw [hresult] at hagrees
          have hsecond : Check.firstFailure? second = some failure := hagrees
          change Check.firstFailure? (first ++ second) = some failure
          rw [Check.firstFailure?_append, Check.firstFailure?_eq_none_iff.mpr hpass, hsecond]
          rfl

theorem outcomes {result : Except Failure α} {checks : List Check} {value? : Option α}
    (h : Agrees result checks value?) :
    ((∃ value, result = .ok value) ↔ ∀ check ∈ checks, check = none) ∧
      (∀ value, result = .ok value → value? = some value) ∧
      ∀ failure, result = .error failure ↔ Check.firstFailure? checks = some failure := by
  cases result with
  | ok value =>
      rcases h with ⟨hpass, hvalue⟩
      have hnone := Check.firstFailure?_eq_none_iff.mpr hpass
      refine ⟨?_, ?_, ?_⟩
      · exact ⟨fun _ => hpass, fun _ => ⟨value, rfl⟩⟩
      · intro other hother
        cases hother
        exact hvalue
      · intro failure
        simp [hnone]
  | error failure =>
      have hfirst : Check.firstFailure? checks = some failure := h
      refine ⟨?_, ?_, ?_⟩
      · constructor
        · intro h
          rcases h with ⟨value, hvalue⟩
          cases hvalue
        · intro hpass
          rw [Check.firstFailure?_eq_none_iff.mpr hpass] at hfirst
          cases hfirst
      · intro value hvalue
        cases hvalue
      · intro other
        rw [hfirst]
        simp

end Agrees

namespace Expression

/-! ## One lemma for each step -/

theorem settle_agrees (value : Float) :
    Agrees (settle value) (Check.ofValue (some value)) (some value) := by
  simp only [settle, Check.ofValue]
  by_cases hnan : value.isNaN = true
  · rw [if_pos hnan, if_pos hnan]
    exact .error
  · rw [if_neg hnan, if_neg hnan]
    refine .cons_none ?_
    by_cases hinf : value.isInf = true
    · rw [if_pos hinf, if_pos hinf]
      exact .error
    · rw [if_neg hinf, if_neg hinf]
      exact .cons_none .ok

theorem operation_agrees (operator : Operator) (left right : Float) :
    Agrees (operator.apply left right >>= settle)
      (operator.refusal? left right ::
        Check.ofValue (some (operator.uncheckedValue left right)))
      (some (operator.uncheckedValue left right)) := by
  rw [Operator.apply_eq]
  cases operator.refusal? left right with
  | some failure => exact .error
  | none => exact .cons_none (settle_agrees _)

variable {registry : Registry} {bindings : Table Float}

theorem entryChecks_of_arity {name : String} {args : List Expression} {arity : Nat}
    (harity : calleeArity? registry name = some arity) :
    entryChecks registry (.call name args) =
      [none, if args.length = arity then none
        else some (.argumentCount name arity args.length)] := by
  rcases calleeArity?_eq_some_iff.mp harity with
    ⟨function, hfunction, rfl⟩ | ⟨hfunction, rfl, rfl⟩
  · simp [entryChecks, Check.ofName, Check.ofCount, Registry.arity?, hfunction]
  · simp [entryChecks, Check.ofName, Check.ofCount, Registry.arity?, hfunction]

theorem entryChecks_of_unknown {name : String} {args : List Expression}
    (harity : calleeArity? registry name = none) :
    entryChecks registry (.call name args) =
      [some (.unknownFunction name), Check.ofCount registry name args.length] := by
  rcases calleeArity?_eq_none_iff.mp harity with ⟨hfunction, hname⟩
  simp [entryChecks, Check.ofName, hfunction, hname]

theorem operationCheck_of_function {name : String} {args : List Expression}
    {function : Function} (hfunction : registry.function? name = some function) :
    operationCheck registry bindings (.call name args) = none := by
  rw [operationCheck]
  split
  · simp [Check.ofFactorial, hfunction]
  · rfl

theorem applied_agrees {name : String} {args : List Expression} {values : List Float}
    (harity : calleeArity? registry name = some values.length)
    (hvalues : uncheckedValues? registry bindings args = some values) :
    Agrees (applied registry name values >>= settle)
      (exitChecks registry bindings (.call name args))
      (uncheckedValue? registry bindings (.call name args)) := by
  have hvalue :
      uncheckedValue? registry bindings (.call name args) =
        uncheckedCall? registry name values := by
    rw [uncheckedValue?, hvalues]
    rfl
  rw [exitChecks, hvalue]
  rcases calleeArity?_eq_some_iff.mp harity with
    ⟨function, hfunction, hcount⟩ | ⟨hfunction, rfl, hcount⟩
  · rcases Function.exists_call_eq hcount.symm with ⟨value, hcall, hunchecked⟩
    rw [operationCheck_of_function hfunction, applied_of_function hfunction]
    simp only [uncheckedCall?, hfunction, hcall, hunchecked]
    exact .cons_none (settle_agrees value)
  · rcases List.length_eq_one_iff.mp hcount with ⟨value, rfl⟩
    rw [operationCheck, hvalues]
    simp only [uncheckedCall?, hfunction, if_true, Check.ofFactorial]
    cases hfactorial : Builtin.factorial? value with
    | none =>
        rw [applied_of_undefined hfunction hfactorial]
        exact .error
    | some result =>
        rw [applied_of_factorial hfunction hfactorial]
        exact .cons_none (settle_agrees result)

theorem arguments_agree {args : List Expression}
    (h : ∀ arg ∈ args, Agrees (evaluate registry bindings arg) (checks registry bindings arg)
      (uncheckedValue? registry bindings arg)) :
    Agrees (args.mapM (evaluate registry bindings)) (argumentChecks registry bindings args)
      (uncheckedValues? registry bindings args) := by
  induction args with
  | nil =>
      rw [List.mapM_nil, argumentChecks, uncheckedValues?]
      exact .ok
  | cons arg args ih =>
      have hrest := ih fun other hmem => h other (List.mem_cons_of_mem _ hmem)
      rw [List.mapM_cons, argumentChecks, uncheckedValues?]
      refine (h arg List.mem_cons_self).bind ?_
      intro value hvalue
      rw [hvalue, ← List.append_nil (argumentChecks registry bindings args)]
      refine hrest.bind ?_
      intro values hvalues
      rw [hvalues]
      exact .ok

theorem length_of_uncheckedValues? {args : List Expression} {values : List Float}
    (hvalues : uncheckedValues? registry bindings args = some values) :
    values.length = args.length := by
  induction args generalizing values with
  | nil =>
      rw [uncheckedValues?] at hvalues
      cases hvalues
      rfl
  | cons arg args ih =>
      rw [uncheckedValues?] at hvalues
      simp only [Option.bind_eq_bind, Option.bind_eq_some_iff, Option.pure_def,
        Option.some.injEq] at hvalues
      rcases hvalues with ⟨value, -, rest, hrest, rfl⟩
      rw [List.length_cons, List.length_cons, ih hrest]

theorem call_agrees {name : String} {args : List Expression}
    (h : ∀ arg ∈ args, Agrees (evaluate registry bindings arg) (checks registry bindings arg)
      (uncheckedValue? registry bindings arg)) :
    Agrees (evaluate registry bindings (.call name args))
      (checks registry bindings (.call name args))
      (uncheckedValue? registry bindings (.call name args)) := by
  rw [checks]
  cases harity : calleeArity? registry name with
  | none =>
      rw [evaluate_call_of_unknown harity, entryChecks_of_unknown harity]
      exact .error
  | some arity =>
      by_cases hcount : args.length = arity
      · subst hcount
        rw [evaluate_call_of_arity harity, entryChecks_of_arity harity, if_pos rfl]
        refine .cons_none (.cons_none ?_)
        refine (arguments_agree h).bind ?_
        intro values hvalues
        rw [← length_of_uncheckedValues? hvalues] at harity
        exact applied_agrees harity hvalues
      · rw [evaluate_call_of_other_arity harity hcount, entryChecks_of_arity harity,
          if_neg hcount]
        exact .cons_none .error

/-- Every evaluation agrees with the checks of its tree and its unchecked value. -/
theorem evaluate_agrees (tree : Expression) :
    Agrees (evaluate registry bindings tree) (checks registry bindings tree)
      (uncheckedValue? registry bindings tree) := by
  induction tree using tree_induction with
  | number value =>
      rw [evaluate, checks, exitChecks, uncheckedValue?]
      exact .cons_none (settle_agrees value)
  | var name =>
      rw [evaluate, checks, exitChecks, uncheckedValue?, operationCheck]
      cases bindings.get? name with
      | none => exact .error
      | some value => exact .cons_none (settle_agrees value)
  | binary operator left right hleft hright =>
      rw [evaluate, checks, List.append_assoc]
      refine hleft.bind ?_
      intro leftValue hleftValue
      refine hright.bind ?_
      intro rightValue hrightValue
      rw [exitChecks, uncheckedValue?, operationCheck, hleftValue, hrightValue]
      exact operation_agrees operator leftValue rightValue
  | call name args hargs => exact call_agrees hargs

/-! ## Checks of the nodes -/

theorem mem_argumentChecks_iff {args : List Expression} {check : Check} :
    check ∈ argumentChecks registry bindings args ↔
      ∃ arg ∈ args, check ∈ checks registry bindings arg := by
  induction args with
  | nil => simp [argumentChecks]
  | cons arg args ih => simp [argumentChecks, ih]

theorem checks_pass_iff (tree : Expression) :
    (∀ check ∈ checks registry bindings tree, check = none) ↔
      ∀ node, Node node tree → Passes registry bindings node := by
  induction tree using tree_induction with
  | number value =>
      rw [checks]
      exact ⟨fun h => forall_node_number h, fun h => h _ .root⟩
  | var name =>
      rw [checks]
      exact ⟨fun h => forall_node_var h, fun h => h _ .root⟩
  | binary operator left right hleft hright =>
      rw [checks, List.forall_mem_append, List.forall_mem_append, hleft, hright]
      constructor
      · intro h
        rcases h with ⟨⟨hleft, hright⟩, hroot⟩
        exact forall_node_binary hroot hleft hright
      · intro h
        exact ⟨⟨fun node hnode => h node hnode.left, fun node hnode => h node hnode.right⟩,
          h _ .root⟩
  | call name args hargs =>
      rw [checks, List.forall_mem_append, List.forall_mem_append]
      constructor
      · intro h
        rcases h with ⟨⟨hentry, hargument⟩, hexit⟩
        refine forall_node_call (List.forall_mem_append.mpr ⟨hentry, hexit⟩) ?_
        intro arg hmem
        refine (hargs arg hmem).mp ?_
        intro check hcheck
        exact hargument check (mem_argumentChecks_iff.mpr ⟨arg, hmem, hcheck⟩)
      · intro h
        have hroot := List.forall_mem_append.mp (h _ .root)
        refine ⟨⟨hroot.1, ?_⟩, hroot.2⟩
        intro check hcheck
        rcases mem_argumentChecks_iff.mp hcheck with ⟨arg, hmem, hcheck⟩
        exact (hargs arg hmem).mpr (fun node hnode => h node (.argument hmem hnode)) check hcheck

/-- An evaluation has a value exactly when every node passes its own checks, and this value is
the unchecked one; any other evaluation has the failure of the first check in the order of
evaluation that does not pass. -/
theorem evaluate_eq_reference (registry : Registry) (bindings : Table Float)
    (tree : Expression) :
    ((∃ value, evaluate registry bindings tree = .ok value) ↔
        ∀ node, Node node tree → Passes registry bindings node) ∧
      (∀ value, evaluate registry bindings tree = .ok value →
        uncheckedValue? registry bindings tree = some value) ∧
      ∀ failure, evaluate registry bindings tree = .error failure ↔
        Check.firstFailure? (checks registry bindings tree) = some failure := by
  rw [← checks_pass_iff]
  exact (evaluate_agrees tree).outcomes

end Expression

end Formula
