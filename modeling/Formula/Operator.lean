import Formula.Binary64.Whole
import Formula.Failure

/-!
# Operators

The six operators between two operands: their symbols, how tightly they bind, and
what they compute.
-/

namespace Formula

inductive Operator where
  | add
  | subtract
  | multiply
  | divide
  | remainder
  | power
  deriving DecidableEq, Repr

namespace Operator

def symbol : Operator → String
  | add => "+"
  | subtract => "-"
  | multiply => "*"
  | divide => "/"
  | remainder => "%"
  | power => "^"

def ofSymbol? (symbol : String) : Option Operator :=
  if symbol = "+" then some add
  else if symbol = "-" then some subtract
  else if symbol = "*" then some multiply
  else if symbol = "/" then some divide
  else if symbol = "%" then some remainder
  else if symbol = "^" then some power
  else none

/-- How tightly an operator binds. Every operator groups to the left, the power included. -/
def precedence : Operator → Nat
  | add | subtract => 1
  | multiply | divide | remainder => 2
  | power => 3

/-- The value of an operation. A zero divisor and a negative base of a power are refused; what
the arithmetic of doubles itself makes of the operands is not. -/
def apply (operator : Operator) (left right : Float) : Except Failure Float :=
  match operator with
  | add => .ok (left + right)
  | subtract => .ok (left - right)
  | multiply => .ok (left * right)
  | divide => if right == 0 then .error .divisionByZero else .ok (left / right)
  | remainder =>
      if right == 0 then .error .remainderByZero else .ok (Binary64.remainder left right)
  | power => if left < 0 then .error (.negativeBase left) else .ok (left.pow right)

@[simp] theorem ofSymbol?_symbol (operator : Operator) :
    ofSymbol? operator.symbol = some operator := by
  cases operator <;> rfl

theorem symbol_of_ofSymbol? {symbol : String} {operator : Operator}
    (h : ofSymbol? symbol = some operator) : operator.symbol = symbol := by
  unfold ofSymbol? at h
  repeat' split at h
  all_goals simp_all [Operator.symbol] <;> subst h <;> rfl

end Operator

end Formula
