import Formula.Builtin.Arithmetic
import Formula.Expression
import Formula.Registry
import Formula.Token

/-!
# Evaluating expressions

The value of an expression under a registry and a table of bindings. Every node's
value is checked, so a value that is not a finite number fails at the node that
produced it.

The values of a call's arguments are gathered in three slots, as many as a function
can take.
-/

namespace Formula

abbrev Slots := Vector Float 3

namespace Slots

def blank : Slots := Vector.replicate 3 0

end Slots

namespace Expression

/-- Accept a finite value. -/
def settle (value : Float) : Except Failure Float :=
  if value.isNaN then .error .notANumber
  else if value.isInf then .error .infinite
  else .ok value

/-- The number of arguments a call of a name takes. The factorial mark takes one, also where
no function has its name. -/
def calleeArity? (registry : Registry) (name : String) : Option Nat :=
  match registry.function? name with
  | some function => some function.arity
  | none => if name = Token.factorialMark then some 1 else none

/-- Apply what a name calls to the first `count` slots. -/
def invoke (registry : Registry) (name : String) (count : Nat) (slots : Slots) :
    Except Failure Float :=
  match registry.function? name with
  | some function => function.call (slots.toList.take count)
  | none =>
      match Builtin.factorial? slots[0] with
      | some value => .ok value
      | none => .error .undefinedFactorial

mutual

def evaluate (registry : Registry) (bindings : Table Float) :
    Expression → Except Failure Float
  | .number value => settle value
  | .var name =>
      match bindings.get? name with
      | none => .error (.unboundVariable name)
      | some value => settle value
  | .binary operator left right => do
      let leftValue ← evaluate registry bindings left
      let rightValue ← evaluate registry bindings right
      let value ← operator.apply leftValue rightValue
      settle value
  | .call name args =>
      match calleeArity? registry name with
      | none => .error (.unknownFunction name)
      | some arity =>
          if args.length ≠ arity then .error (.argumentCount name arity args.length)
          else do
            let slots ← fill registry bindings args 0 .blank
            let value ← invoke registry name args.length slots
            settle value

/-- Put the values of a list of arguments into the slots from `next` onward. -/
def fill (registry : Registry) (bindings : Table Float) :
    List Expression → Nat → Slots → Except Failure Slots
  | [], _, slots => .ok slots
  | arg :: args, next, slots => do
      let value ← evaluate registry bindings arg
      fill registry bindings args (next + 1) (slots.setIfInBounds next value)

end

end Expression

end Formula
