import Formula.Expression.Evaluation
import Formula.Proofs.Expression.Nodes

/-!
# Reference evaluation

What a tree means with the checks taken apart from the values. The unchecked value of
a node applies its operation to the unchecked values of its operands and looks at none
of them; it is missing only where there is nothing to apply or to read. The checks of
a node are listed beside it, each as the failure it reports, and the checks of a tree
are those of its nodes in the order in which an evaluation comes to them.
-/

namespace Formula

namespace Operator

/-- The value of an operation on any operands. -/
def uncheckedValue (operator : Operator) (left right : Float) : Float :=
  match operator with
  | add => left + right
  | subtract => left - right
  | multiply => left * right
  | divide => left / right
  | remainder => Binary64.remainder left right
  | power => left.pow right

/-- The failure of an operation on operands it refuses. -/
def refusal? (operator : Operator) (left right : Float) : Option Failure :=
  match operator with
  | divide => if right == 0 then some .divisionByZero else none
  | remainder => if right == 0 then some .remainderByZero else none
  | power => if left < 0 then some (.negativeBase left) else none
  | _ => none

end Operator

/-- A check: nothing where it passes, and else the failure it reports. -/
abbrev Check := Option Failure

namespace Check

/-- The failure of the first check in a list that does not pass. -/
def firstFailure? (checks : List Check) : Option Failure :=
  checks.findSome? id

/-- The checks on the value of a node, where it has one: neither NaN nor infinite. -/
def ofValue : Option Float → List Check
  | none => []
  | some value =>
      [if value.isNaN then some .notANumber else none,
        if value.isInf then some .infinite else none]

/-- The check that a name can be called. -/
def ofName (registry : Registry) (name : String) : Check :=
  if (registry.function? name).isSome ∨ name = Token.factorialMark then none
  else some (.unknownFunction name)

/-- The check that a call has as many arguments as its function takes. The factorial, where no
function has its name, takes one. -/
def ofCount (registry : Registry) (name : String) (given : Nat) : Check :=
  let expected := (registry.arity? name).getD 1
  if given = expected then none else some (.argumentCount name expected given)

/-- The check that the factorial is defined, where no function has the name of its mark. -/
def ofFactorial (registry : Registry) (name : String) (value : Float) : Check :=
  if (registry.function? name).isNone ∧ name = Token.factorialMark ∧
      (Builtin.factorial? value).isNone then some .undefinedFactorial
  else none

end Check

/-- The result of a function on as many values as it takes. -/
def Function.uncheckedValue? (function : Function) (values : List Float) : Option Float :=
  match function, values with
  | .unary run, [a] => some (run a)
  | .binary run, [a, b] => some (run a b)
  | .ternary run, [a, b, c] => some (run a b c)
  | _, _ => none

namespace Expression

/-- What a name makes of a list of values, where it makes anything of it. -/
def uncheckedCall? (registry : Registry) (name : String) (values : List Float) :
    Option Float :=
  match registry.function? name, values with
  | some function, values => function.uncheckedValue? values
  | none, [value] => if name = Token.factorialMark then Builtin.factorial? value else none
  | none, _ => none

section

variable (registry : Registry) (bindings : Table Float)

mutual

/-- The unchecked value of an expression. -/
def uncheckedValue? : Expression → Option Float
  | .number value => some value
  | .var name => bindings.get? name
  | .binary operator left right => do
      let leftValue ← uncheckedValue? left
      let rightValue ← uncheckedValue? right
      return operator.uncheckedValue leftValue rightValue
  | .call name args => do
      let values ← uncheckedValues? args
      uncheckedCall? registry name values

def uncheckedValues? : List Expression → Option (List Float)
  | [] => some []
  | arg :: args => do
      let value ← uncheckedValue? arg
      let values ← uncheckedValues? args
      return value :: values

end

/-- The checks of a node before any of its operands is evaluated. -/
def entryChecks : Expression → List Check
  | .call name args => [.ofName registry name, .ofCount registry name args.length]
  | _ => []

/-- The check of a node's own operation on the values of its operands. Where an operand has no
value, a check inside that operand fails and this one has nothing to look at. -/
def operationCheck : Expression → Check
  | .number _ => none
  | .var name =>
      if (bindings.get? name).isSome then none else some (.unboundVariable name)
  | .binary operator left right => do
      let leftValue ← uncheckedValue? registry bindings left
      let rightValue ← uncheckedValue? registry bindings right
      operator.refusal? leftValue rightValue
  | .call name args =>
      match uncheckedValues? registry bindings args with
      | some [value] => .ofFactorial registry name value
      | _ => none

/-- The checks of a node after its operands: its operation, then its value. -/
def exitChecks (node : Expression) : List Check :=
  operationCheck registry bindings node ::
    Check.ofValue (uncheckedValue? registry bindings node)

def ownChecks (node : Expression) : List Check :=
  entryChecks registry node ++ exitChecks registry bindings node

/-- A node passes all its own checks. -/
def Passes (node : Expression) : Prop :=
  ∀ check ∈ ownChecks registry bindings node, check = none

mutual

/-- The checks of all nodes of a tree in the order of evaluation. -/
def checks : Expression → List Check
  | .number value => exitChecks registry bindings (.number value)
  | .var name => exitChecks registry bindings (.var name)
  | .binary operator left right =>
      checks left ++ checks right ++ exitChecks registry bindings (.binary operator left right)
  | .call name args =>
      entryChecks registry (.call name args) ++ argumentChecks args ++
        exitChecks registry bindings (.call name args)

def argumentChecks : List Expression → List Check
  | [] => []
  | arg :: args => checks arg ++ argumentChecks args

end

end

end Expression

end Formula
