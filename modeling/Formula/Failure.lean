import Formula.Decimal.Text

/-!
# Failures

Why a formula could not be read or evaluated. `Failure` names the causes,
`Failure.code` sorts them into the classes a caller tells apart, and
`Failure.message` words them.
-/

namespace Formula

inductive FailureCode where
  | malformed
  | notANumber
  | infinite
  | divisionByZero
  | unknownNode
  | emptyGroup
  | unboundVariable
  | unknownFunction
  | unknownOperator
  | unmatchedGroup
  | argumentCount
  deriving DecidableEq, Repr

inductive Failure where
  /-- The tokens end where an operand has to start. -/
  | endOfTokens
  | invalidNumeral (text : String)
  | unexpectedToken (text : String)
  | unexpectedOperator (text : String)
  | trailingToken (text : String)
  | danglingOperator (symbol : String)
  /-- A factorial mark stands where an operand has to start. -/
  | leadingFactorial
  /-- A factorial mark follows an operand that cannot take it. -/
  | detachedFactorial
  | emptyGroup
  | unclosedGroup
  /-- A complete expression is followed by a closing parenthesis. -/
  | surplusClosing
  | unknownOperator (symbol : String)
  | unknownFunction (name : String)
  | noArguments (name : String)
  | argumentCount (name : String) (expected given : Nat)
  | unboundVariable (name : String)
  | divisionByZero
  | remainderByZero
  | negativeBase (base : Float)
  | undefinedFactorial
  | notANumber
  | infinite
  /-- A function was applied to a list of another length than its arity. -/
  | arityMismatch (expected given : Nat)
  | nothingParsed
  deriving DecidableEq, Repr

namespace FailureCode

def label : FailureCode → String
  | malformed => "PARSE_ERROR"
  | notANumber => "EVALUATION_NAN"
  | infinite => "EVALUATION_INF"
  | divisionByZero => "DIVISION_BY_ZERO"
  | unknownNode => "UNKNOWN_NODE_TYPE"
  | emptyGroup => "EMPTY_PARENTHESIS"
  | unboundVariable => "VARIABLE_NOT_FOUND"
  | unknownFunction => "FUNCTION_NOT_FOUND"
  | unknownOperator => "OPERATOR_NOT_FOUND"
  | unmatchedGroup => "UNMATCHED_PARENTHESIS"
  | argumentCount => "FUNCTION_WRONG_ARGUMENTS_COUNT"

def headed (code : FailureCode) (message : String) : String :=
  code.label ++ ": " ++ message

end FailureCode

namespace Failure

def code : Failure → FailureCode
  | endOfTokens | invalidNumeral _ | unexpectedToken _ | unexpectedOperator _
  | trailingToken _ | danglingOperator _ | leadingFactorial | detachedFactorial
  | undefinedFactorial | nothingParsed => .malformed
  | emptyGroup => .emptyGroup
  | unclosedGroup | surplusClosing => .unmatchedGroup
  | unknownOperator _ => .unknownOperator
  | unknownFunction _ => .unknownFunction
  | noArguments _ | argumentCount _ _ _ | arityMismatch _ _ => .argumentCount
  | unboundVariable _ => .unboundVariable
  | divisionByZero | remainderByZero => .divisionByZero
  | negativeBase _ | notANumber => .notANumber
  | infinite => .infinite

def message : Failure → String
  | endOfTokens => "Unexpected end of expression"
  | invalidNumeral text => "Invalid number: " ++ text
  | unexpectedToken text => "Unexpected token: " ++ text
  | unexpectedOperator text => "Unexpected operator: " ++ text
  | trailingToken text => "Unexpected token '" ++ text ++ "' found after complete parsing"
  | danglingOperator symbol => "Incomplete expression after operator: " ++ symbol
  | leadingFactorial => "Factorial operator '!' cannot be used alone or in prefix position"
  | detachedFactorial =>
      "Factorial operator '!' must directly follow a number, a variable or a call"
  | emptyGroup => "Empty parenthesis found"
  | unclosedGroup => "Unmatched parenthesis"
  | surplusClosing => "Unmatched parenthesis found at the end of the expression"
  | unknownOperator symbol => "Operator not found: " ++ symbol
  | unknownFunction name => "Function not found: " ++ name
  | noArguments name => "Function called without arguments: " ++ name
  | argumentCount name expected given =>
      "Incorrect number of arguments for function " ++ name ++ ": expected "
        ++ toString expected ++ ", got " ++ toString given
  | unboundVariable name => "Variable not found: " ++ name
  | divisionByZero => "Division by zero"
  | remainderByZero => "Modulo by zero"
  | negativeBase base => "Power of negative base " ++ Decimal.plain base
  | undefinedFactorial => "Factorial is not defined for negative or non-integer values"
  | notANumber => "Result is NaN"
  | infinite => "Result is Inf"
  | arityMismatch expected given =>
      "Expected " ++ toString expected ++ " arguments, but got " ++ toString given
  | nothingParsed => "No expression has been parsed"

def describe (failure : Failure) : String :=
  failure.code.headed failure.message

end Failure

end Formula
