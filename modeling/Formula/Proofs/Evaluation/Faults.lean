import Formula.Proofs.Evaluation.Slots
import Formula.Proofs.Expression.Nodes

/-!
# Faults

What the outcome of an evaluation says about the nodes of its tree. An evaluation that
has a value has one at every node, and each of these values is finite. An evaluation
that fails has its failure from one node, and `Fault` lists what a node can report.
-/

namespace Formula

/-! ## Results in sequence -/

section

variable {ε α β : Type}

theorem bind_eq_ok_iff {result : Except ε α} {next : α → Except ε β} {target : β} :
    (result >>= next) = .ok target ↔ ∃ value, result = .ok value ∧ next value = .ok target := by
  cases result with
  | error failure =>
      constructor
      · intro h
        cases h
      · rintro ⟨value, hvalue, -⟩
        cases hvalue
  | ok value =>
      constructor
      · intro h
        exact ⟨value, rfl, h⟩
      · rintro ⟨other, hother, h⟩
        cases hother
        exact h

theorem bind_eq_error_iff {result : Except ε α} {next : α → Except ε β} {failure : ε} :
    (result >>= next) = .error failure ↔
      result = .error failure ∨ ∃ value, result = .ok value ∧ next value = .error failure := by
  cases result with
  | error other =>
      constructor
      · intro h
        cases h
        exact .inl rfl
      · rintro (h | ⟨value, hvalue, -⟩)
        · cases h
          rfl
        · cases hvalue
  | ok value =>
      constructor
      · intro h
        exact .inr ⟨value, rfl, h⟩
      · rintro (h | ⟨other, hother, h⟩)
        · cases h
        · cases hother
          exact h

theorem exists_ok_of_mapM_eq_ok {f : α → Except ε β} {items : List α} {values : List β}
    (h : items.mapM f = .ok values) : ∀ item ∈ items, ∃ value, f item = .ok value := by
  induction items generalizing values with
  | nil => simp
  | cons item items ih =>
      rw [List.mapM_cons, bind_eq_ok_iff] at h
      rcases h with ⟨value, hvalue, h⟩
      rcases bind_eq_ok_iff.1 h with ⟨rest, hrest, -⟩
      exact List.forall_mem_cons.2 ⟨⟨value, hvalue⟩, ih hrest⟩

theorem exists_item_of_mapM_eq_ok {f : α → Except ε β} {items : List α} {values : List β}
    (h : items.mapM f = .ok values) : ∀ value ∈ values, ∃ item ∈ items, f item = .ok value := by
  induction items generalizing values with
  | nil =>
      cases h
      simp
  | cons item items ih =>
      rw [List.mapM_cons, bind_eq_ok_iff] at h
      rcases h with ⟨first, hfirst, h⟩
      rcases bind_eq_ok_iff.1 h with ⟨rest, hrest, hpure⟩
      cases hpure
      intro value hmem
      rcases List.mem_cons.1 hmem with rfl | hmem
      · exact ⟨item, List.mem_cons_self, hfirst⟩
      · rcases ih hrest value hmem with ⟨other, hother, hvalue⟩
        exact ⟨other, List.mem_cons_of_mem _ hother, hvalue⟩

theorem exists_error_of_mapM_eq_error {f : α → Except ε β} {items : List α} {failure : ε}
    (h : items.mapM f = .error failure) : ∃ item ∈ items, f item = .error failure := by
  induction items with
  | nil => cases h
  | cons item items ih =>
      rw [List.mapM_cons, bind_eq_error_iff] at h
      rcases h with hitem | ⟨value, -, h⟩
      · exact ⟨item, List.mem_cons_self, hitem⟩
      · rcases bind_eq_error_iff.1 h with hrest | ⟨rest, -, hpure⟩
        · rcases ih hrest with ⟨other, hmem, hother⟩
          exact ⟨other, List.mem_cons_of_mem _ hmem, hother⟩
        · cases hpure

end

namespace Expression

variable {registry : Registry} {bindings : Table Float}

/-! ## Values -/

/-- A double that is neither NaN nor infinite. -/
def IsFinite (value : Float) : Prop :=
  value.isNaN = false ∧ value.isInf = false

instance (value : Float) : Decidable (IsFinite value) :=
  inferInstanceAs (Decidable (_ ∧ _))

theorem settle_eq_ok_iff {value result : Float} :
    settle value = .ok result ↔ result = value ∧ IsFinite value := by
  unfold settle IsFinite
  cases hnan : value.isNaN with
  | true => simp
  | false =>
      cases hinf : value.isInf with
      | true => simp
      | false => simp [eq_comm]

theorem isNaN_eq_false_of_isInf {value : Float} (h : value.isInf = true) :
    value.isNaN = false := by
  unfold Float.isInf Float.Model.isInf at h
  unfold Float.isNaN Float.Model.isNaN
  cases hparts : value.toModel.unpack with
  | infinity => rfl
  | notANumber | zero | finite =>
      rw [hparts] at h
      cases h

theorem settle_of_isNaN {value : Float} (h : value.isNaN = true) :
    settle value = .error .notANumber := by
  rw [settle, if_pos h]

theorem settle_of_isInf {value : Float} (h : value.isInf = true) :
    settle value = .error .infinite := by
  rw [settle, isNaN_eq_false_of_isInf h, if_neg Bool.false_ne_true, if_pos h]

theorem settle_eq_error {value : Float} {failure : Failure} (h : settle value = .error failure) :
    failure = .notANumber ∨ failure = .infinite := by
  unfold settle at h
  split at h
  · cases h
    exact .inl rfl
  · split at h
    · cases h
      exact .inr rfl
    · cases h

theorem evaluate_call_eq_ok {name : String} {args : List Expression} {value : Float}
    (h : evaluate registry bindings (.call name args) = .ok value) :
    calleeArity? registry name = some args.length ∧
      ∃ values result, args.mapM (evaluate registry bindings) = .ok values ∧
        applied registry name values = .ok result ∧ settle result = .ok value := by
  cases harity : calleeArity? registry name with
  | none =>
      rw [evaluate_call_of_unknown harity] at h
      cases h
  | some arity =>
      by_cases hcount : args.length = arity
      · subst hcount
        rw [evaluate_call_of_arity harity, bind_eq_ok_iff] at h
        rcases h with ⟨values, hvalues, h⟩
        rcases bind_eq_ok_iff.1 h with ⟨result, hresult, hsettle⟩
        exact ⟨rfl, values, result, hvalues, hresult, hsettle⟩
      · rw [evaluate_call_of_other_arity harity hcount] at h
        cases h

theorem evaluate_binary_eq_ok {operator : Operator} {left right : Expression} {value : Float}
    (h : evaluate registry bindings (.binary operator left right) = .ok value) :
    ∃ leftValue rightValue result, evaluate registry bindings left = .ok leftValue ∧
      evaluate registry bindings right = .ok rightValue ∧
      operator.apply leftValue rightValue = .ok result ∧ settle result = .ok value := by
  rw [evaluate, bind_eq_ok_iff] at h
  rcases h with ⟨leftValue, hleft, h⟩
  rcases bind_eq_ok_iff.1 h with ⟨rightValue, hright, h⟩
  rcases bind_eq_ok_iff.1 h with ⟨result, hresult, hsettle⟩
  exact ⟨leftValue, rightValue, result, hleft, hright, hresult, hsettle⟩

theorem evaluate_var_eq_ok {name : String} {value : Float}
    (h : evaluate registry bindings (.var name) = .ok value) :
    bindings.get? name = some value ∧ IsFinite value := by
  rw [evaluate] at h
  cases hget : bindings.get? name with
  | none =>
      rw [hget] at h
      cases h
  | some bound =>
      rw [hget] at h
      rcases settle_eq_ok_iff.1 h with ⟨rfl, hfinite⟩
      exact ⟨rfl, hfinite⟩

/-- Whatever an evaluation returns is finite. -/
theorem isFinite_of_evaluate_eq_ok {tree : Expression} {value : Float}
    (h : evaluate registry bindings tree = .ok value) : IsFinite value := by
  have hsettled : ∃ result, settle result = .ok value := by
    cases tree with
    | number literal =>
        rw [evaluate] at h
        exact ⟨literal, h⟩
    | var name =>
        rcases evaluate_var_eq_ok h with ⟨-, hfinite⟩
        exact ⟨value, settle_eq_ok_iff.2 ⟨rfl, hfinite⟩⟩
    | binary operator left right =>
        rcases evaluate_binary_eq_ok h with ⟨-, -, result, -, -, -, hsettle⟩
        exact ⟨result, hsettle⟩
    | call name args =>
        rcases evaluate_call_eq_ok h with ⟨-, -, result, -, -, hsettle⟩
        exact ⟨result, hsettle⟩
  rcases hsettled with ⟨result, hsettle⟩
  rcases settle_eq_ok_iff.1 hsettle with ⟨rfl, hfinite⟩
  exact hfinite

/-- No node of a tree is skipped: where the tree has a value, every node has one. -/
theorem Node.exists_value {node tree : Expression} (hnode : Node node tree) {value : Float}
    (h : evaluate registry bindings tree = .ok value) :
    ∃ inner, evaluate registry bindings node = .ok inner := by
  induction hnode generalizing value with
  | root => exact ⟨value, h⟩
  | left _ ih =>
      rcases evaluate_binary_eq_ok h with ⟨leftValue, -, -, hleft, -⟩
      exact ih hleft
  | right _ ih =>
      rcases evaluate_binary_eq_ok h with ⟨-, rightValue, -, -, hright, -⟩
      exact ih hright
  | argument hmem _ ih =>
      rcases evaluate_call_eq_ok h with ⟨-, values, -, hvalues, -⟩
      rcases exists_ok_of_mapM_eq_ok hvalues _ hmem with ⟨argument, hargument⟩
      exact ih hargument

/-! ## Failures -/

/-- What a node can report by itself, once its operands have their values. -/
inductive Fault (registry : Registry) (bindings : Table Float) : Expression → Failure → Prop
  | unboundVariable {name : String} (unbound : bindings.get? name = none) :
      Fault registry bindings (.var name) (.unboundVariable name)
  | divisionByZero {left right : Expression} {divisor : Float}
      (value : evaluate registry bindings right = .ok divisor) (zero : (divisor == 0) = true) :
      Fault registry bindings (.binary .divide left right) .divisionByZero
  | remainderByZero {left right : Expression} {divisor : Float}
      (value : evaluate registry bindings right = .ok divisor) (zero : (divisor == 0) = true) :
      Fault registry bindings (.binary .remainder left right) .remainderByZero
  | negativeBase {left right : Expression} {base : Float}
      (value : evaluate registry bindings left = .ok base) (negative : base < 0) :
      Fault registry bindings (.binary .power left right) (.negativeBase base)
  | unknownFunction {name : String} {args : List Expression}
      (unknown : calleeArity? registry name = none) :
      Fault registry bindings (.call name args) (.unknownFunction name)
  | argumentCount {name : String} {args : List Expression} {arity : Nat}
      (callee : calleeArity? registry name = some arity) (other : args.length ≠ arity) :
      Fault registry bindings (.call name args) (.argumentCount name arity args.length)
  | undefinedFactorial {arg : Expression} {value : Float}
      (unregistered : registry.function? Token.factorialMark = none)
      (argument : evaluate registry bindings arg = .ok value)
      (undefined : Builtin.factorial? value = none) :
      Fault registry bindings (.call Token.factorialMark [arg]) .undefinedFactorial
  | notANumber {node : Expression} : Fault registry bindings node .notANumber
  | infinite {node : Expression} : Fault registry bindings node .infinite

namespace Fault

/-! The class of a fault tells which node it is of. -/

variable {node : Expression} {failure : Failure}

theorem of_unboundVariable (h : Fault registry bindings node failure)
    (hcode : failure.code = .unboundVariable) :
    ∃ name, node = .var name ∧ bindings.get? name = none := by
  cases h with
  | unboundVariable unbound => exact ⟨_, rfl, unbound⟩
  | _ => cases hcode

theorem of_divisionByZero (h : Fault registry bindings node failure)
    (hcode : failure.code = .divisionByZero) :
    ∃ operator left right, node = .binary operator left right ∧
      (operator = .divide ∨ operator = .remainder) := by
  cases h with
  | divisionByZero => exact ⟨_, _, _, rfl, .inl rfl⟩
  | remainderByZero => exact ⟨_, _, _, rfl, .inr rfl⟩
  | _ => cases hcode

theorem of_unknownFunction (h : Fault registry bindings node failure)
    (hcode : failure.code = .unknownFunction) :
    ∃ name args, node = .call name args ∧ failure = .unknownFunction name ∧
      calleeArity? registry name = none := by
  cases h with
  | unknownFunction unknown => exact ⟨_, _, rfl, rfl, unknown⟩
  | _ => cases hcode

theorem of_argumentCount (h : Fault registry bindings node failure)
    (hcode : failure.code = .argumentCount) :
    ∃ name args arity, node = .call name args ∧ calleeArity? registry name = some arity ∧
      args.length ≠ arity := by
  cases h with
  | argumentCount callee other => exact ⟨_, _, _, rfl, callee, other⟩
  | _ => cases hcode

theorem of_malformed (h : Fault registry bindings node failure)
    (hcode : failure.code = .malformed) :
    ∃ arg, node = .call Token.factorialMark [arg] ∧
      registry.function? Token.factorialMark = none := by
  cases h with
  | undefinedFactorial unregistered => exact ⟨_, rfl, unregistered⟩
  | _ => cases hcode

end Fault

theorem fault_of_settle {node : Expression} {value : Float} {failure : Failure}
    (h : settle value = .error failure) : Fault registry bindings node failure := by
  rcases settle_eq_error h with rfl | rfl
  · exact .notANumber
  · exact .infinite

theorem fault_of_apply {operator : Operator} {left right : Expression}
    {leftValue rightValue : Float} {failure : Failure}
    (hleft : evaluate registry bindings left = .ok leftValue)
    (hright : evaluate registry bindings right = .ok rightValue)
    (h : operator.apply leftValue rightValue = .error failure) :
    Fault registry bindings (.binary operator left right) failure := by
  cases operator with
  | add | subtract | multiply => cases h
  | divide =>
      simp only [Operator.apply] at h
      split at h
      · cases h
        exact .divisionByZero hright ‹_›
      · cases h
  | remainder =>
      simp only [Operator.apply] at h
      split at h
      · cases h
        exact .remainderByZero hright ‹_›
      · cases h
  | power =>
      simp only [Operator.apply] at h
      split at h
      · cases h
        exact .negativeBase hleft ‹_›
      · cases h

/-- A call of a name that takes as many values as are given fails as an undefined factorial. -/
theorem fault_of_applied {name : String} {args : List Expression} {values : List Float}
    {failure : Failure} (harity : calleeArity? registry name = some args.length)
    (hvalues : args.mapM (evaluate registry bindings) = .ok values)
    (h : applied registry name values = .error failure) :
    Fault registry bindings (.call name args) failure := by
  have hlength := length_of_mapM_eq_ok hvalues
  rcases calleeArity?_eq_some_iff.1 harity with
    ⟨function, hfunction, hcount⟩ | ⟨hfunction, rfl, hcount⟩
  · rcases Function.call_isOk_iff.2 (hlength.trans hcount.symm) with ⟨value, hcall⟩
    rw [applied_of_function hfunction, hcall] at h
    cases h
  · obtain ⟨arg, rfl⟩ := List.length_eq_one_iff.1 hcount
    rw [List.mapM_cons, bind_eq_ok_iff] at hvalues
    rcases hvalues with ⟨value, hvalue, hrest⟩
    rw [List.mapM_nil, pure_bind] at hrest
    cases hrest
    cases hfactorial : Builtin.factorial? value with
    | some result =>
        rw [applied_of_factorial hfunction hfactorial] at h
        cases h
    | none =>
        rw [applied_of_undefined hfunction hfactorial] at h
        cases h
        exact .undefinedFactorial hfunction hvalue hfactorial

/-- A failed evaluation has its failure from one node of the tree. -/
theorem exists_fault_of_evaluate_eq_error {tree : Expression} {failure : Failure}
    (h : evaluate registry bindings tree = .error failure) :
    ∃ node, Node node tree ∧ Fault registry bindings node failure := by
  induction tree using tree_induction with
  | number value =>
      rw [evaluate] at h
      exact ⟨_, .root, fault_of_settle h⟩
  | var name =>
      rw [evaluate] at h
      cases hget : bindings.get? name with
      | none =>
          rw [hget] at h
          cases h
          exact ⟨_, .root, .unboundVariable hget⟩
      | some value =>
          rw [hget] at h
          exact ⟨_, .root, fault_of_settle h⟩
  | binary operator left right ihleft ihright =>
      rw [evaluate, bind_eq_error_iff] at h
      rcases h with hleft | ⟨leftValue, hleft, h⟩
      · rcases ihleft hleft with ⟨node, hnode, hfault⟩
        exact ⟨node, hnode.left, hfault⟩
      rcases bind_eq_error_iff.1 h with hright | ⟨rightValue, hright, h⟩
      · rcases ihright hright with ⟨node, hnode, hfault⟩
        exact ⟨node, hnode.right, hfault⟩
      rcases bind_eq_error_iff.1 h with happly | ⟨value, -, hsettle⟩
      · exact ⟨_, .root, fault_of_apply hleft hright happly⟩
      · exact ⟨_, .root, fault_of_settle hsettle⟩
  | call name args ih =>
      cases harity : calleeArity? registry name with
      | none =>
          rw [evaluate_call_of_unknown harity] at h
          cases h
          exact ⟨_, .root, .unknownFunction harity⟩
      | some arity =>
          by_cases hcount : args.length = arity
          · subst hcount
            rw [evaluate_call_of_arity harity, bind_eq_error_iff] at h
            rcases h with hargs | ⟨values, hvalues, h⟩
            · rcases exists_error_of_mapM_eq_error hargs with ⟨arg, hmem, harg⟩
              rcases ih arg hmem harg with ⟨node, hnode, hfault⟩
              exact ⟨node, .argument hmem hnode, hfault⟩
            rcases bind_eq_error_iff.1 h with happlied | ⟨value, -, hsettle⟩
            · exact ⟨_, .root, fault_of_applied harity hvalues happlied⟩
            · exact ⟨_, .root, fault_of_settle hsettle⟩
          · rw [evaluate_call_of_other_arity harity hcount] at h
            cases h
            exact ⟨_, .root, .argumentCount harity hcount⟩

end Expression

end Formula
