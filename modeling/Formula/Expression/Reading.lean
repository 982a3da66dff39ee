import Formula.Decimal.Numeral
import Formula.Expression
import Formula.Registry
import Formula.Token.Scan

/-!
# Reading expressions

Tokens are read into an expression by the strength of the operators. Constants are
replaced by their values, and calls are checked against the registry, while reading.

Each function reads a head of a token list and returns the tail. A `Reading` bounds
that tail, so the four functions end because every nested one starts on fewer
tokens, or on the same tokens one level further down.
-/

namespace Formula

/-- What was read off the head of a token list: its value, the variables met on the way with
the latest first, and the tokens left, fewer than `bound`. -/
structure Reading (α : Type) (bound : Nat) where
  value : α
  names : List String
  rest : List Token
  shorter : rest.length < bound

namespace Reading

/-- The strength at which a factorial mark is looked at after an operand that cannot take it:
a power on the left leaves the complaint to the operand around it. -/
def factorialPrecedence : Nat := 3

def countFailure? (registry : Registry) (name : String) (given : Nat) : Option Failure :=
  match registry.arity? name with
  | some arity => if arity = given then none else some (.argumentCount name arity given)
  | none => none

/-- The leaf of a name that is not called: the value of a constant, or a variable. -/
def leaf (registry : Registry) (name : String) : Expression :=
  match registry.constant? name with
  | some value => .number value
  | none => .var name

def leafNames (registry : Registry) (name : String) : List String :=
  match registry.constant? name with
  | some _ => []
  | none => [name]

variable {α : Type} {bound : Nat}

def widen {limit : Nat} (reading : Reading α bound) (h : bound ≤ limit) : Reading α limit :=
  ⟨reading.value, reading.names, reading.rest, Nat.lt_of_lt_of_le reading.shorter h⟩

/-- Step over the parenthesis that has to close what was read. -/
def closed (reading : Reading α bound) : Except Failure (Reading α bound) :=
  match Token.afterKind? .closing reading.rest with
  | none => .error .unclosedGroup
  | some outer =>
      .ok ⟨reading.value, reading.names, outer.val, Nat.lt_trans outer.property reading.shorter⟩

/-- Take up the factorial mark that may follow a number, a name or a call. -/
def withFactorial (reading : Reading Expression bound) : Reading Expression bound :=
  match Token.after? (fun token => token.isOperator Token.factorialMark) reading.rest with
  | none => reading
  | some rest =>
      ⟨.call Token.factorialMark [reading.value], reading.names, rest.val,
        Nat.lt_trans rest.property reading.shorter⟩

def called (registry : Registry) (name : String) (args : Reading (List Expression) bound) :
    Except Failure (Reading Expression bound) :=
  match args.closed with
  | .error failure => .error failure
  | .ok args =>
      match countFailure? registry name args.value.length with
      | some failure => .error failure
      | none =>
          .ok (withFactorial ⟨.call name args.value, args.names, args.rest, args.shorter⟩)

/-! ## Reading by strength -/

mutual

/-- Read an operand: a number, a name or a call, each with the factorial mark that may follow
it, a group in parentheses, or the negative of an operand. -/
def operand (registry : Registry) (tokens : List Token) :
    Except Failure (Reading Expression tokens.length) :=
  match tokens with
  | [] => .error .endOfTokens
  | token :: rest =>
      match token.kind with
      | .number =>
          match Decimal.read? token.text.toList with
          | none => .error (.invalidNumeral token.text)
          | some value => .ok (withFactorial ⟨.number value, [], rest, Nat.lt_succ_self _⟩)
      | .name =>
          match Token.afterKind? .opening rest with
          | none =>
              .ok (withFactorial
                ⟨leaf registry token.text, leafNames registry token.text, rest,
                  Nat.lt_succ_self _⟩)
          | some inner =>
              if !registry.containsFunction token.text then
                .error (.unknownFunction token.text)
              else if (Token.afterKind? .closing inner.val).isSome then
                .error (.noArguments token.text)
              else
                match arguments registry inner.val with
                | .error failure => .error failure
                | .ok args =>
                    called registry token.text
                      (args.widen (Nat.le_succ_of_le (Nat.le_of_lt inner.property)))
      | .opening =>
          if (Token.afterKind? .closing rest).isSome then .error .emptyGroup
          else
            match operation registry 0 rest with
            | .error failure => .error failure
            | .ok inner => (inner.widen (Nat.le_succ _)).closed
      | .operator =>
          if token.text = Token.minusMark then
            match countFailure? registry Token.minusMark 1 with
            | some failure => .error failure
            | none =>
                match operand registry rest with
                | .error failure => .error failure
                | .ok inner =>
                    .ok ⟨.call Token.minusMark [inner.value], inner.names, inner.rest,
                      Nat.lt_succ_of_lt inner.shorter⟩
          else if token.text = Token.factorialMark then .error .leadingFactorial
          else .error (.unexpectedOperator token.text)
      | _ => .error (.unexpectedToken token.text)
termination_by 3 * tokens.length
decreasing_by
  · have := inner.property
    simp only [List.length_cons]
    omega
  · simp only [List.length_cons]
    omega
  · simp only [List.length_cons]
    omega

/-- Read an operand and the operators stronger than `floor` that follow it. -/
def operation (registry : Registry) (floor : Nat) (tokens : List Token) :
    Except Failure (Reading Expression tokens.length) :=
  match operand registry tokens with
  | .error failure => .error failure
  | .ok left => operators registry floor left
termination_by 3 * tokens.length + 1
decreasing_by
  · omega
  · have := left.shorter
    omega

def operators {bound : Nat} (registry : Registry) (floor : Nat)
    (left : Reading Expression bound) : Except Failure (Reading Expression bound) :=
  match left with
  | ⟨value, names, [], h⟩ => .ok ⟨value, names, [], h⟩
  | ⟨value, names, token :: rest, h⟩ =>
      if token.kind ≠ .operator then .ok ⟨value, names, token :: rest, h⟩
      else if token.text = Token.factorialMark then
        if factorialPrecedence ≤ floor then .ok ⟨value, names, token :: rest, h⟩
        else .error .detachedFactorial
      else
        match Operator.ofSymbol? token.text with
        | none => .error (.unknownOperator token.text)
        | some operator =>
            if operator.precedence ≤ floor then .ok ⟨value, names, token :: rest, h⟩
            else if rest.isEmpty then .error (.danglingOperator token.text)
            else
              match operation registry operator.precedence rest with
              | .error failure => .error failure
              | .ok right =>
                  operators registry floor
                    ⟨.binary operator value right.value, right.names ++ names, right.rest,
                      Nat.lt_trans right.shorter (Nat.lt_of_succ_lt h)⟩
termination_by 3 * left.rest.length
decreasing_by
  · simp only [List.length_cons]
    omega
  · have := right.shorter
    simp only [List.length_cons]
    omega

def arguments (registry : Registry) (tokens : List Token) :
    Except Failure (Reading (List Expression) tokens.length) :=
  match operation registry 0 tokens with
  | .error failure => .error failure
  | .ok first =>
      match Token.afterKind? .separator first.rest with
      | none => .ok ⟨[first.value], first.names, first.rest, first.shorter⟩
      | some more =>
          match arguments registry more.val with
          | .error failure => .error failure
          | .ok others =>
              .ok ⟨first.value :: others.value, others.names ++ first.names, others.rest,
                Nat.lt_trans (Nat.lt_trans others.shorter more.property) first.shorter⟩
termination_by 3 * tokens.length + 2
decreasing_by
  · omega
  · have := more.property
    have := first.shorter
    omega

end

end Reading

/-- A formula that was read: its tree, and its variables, each bound to zero. -/
structure Parsed where
  root : Expression
  defaults : Table Float

namespace Parsed

/-- Read a token list that is one expression from end to end. -/
def ofTokens (registry : Registry) (tokens : List Token) : Except Failure Parsed :=
  match Reading.operation registry 0 tokens with
  | .error failure => .error failure
  | .ok whole =>
      match whole.rest with
      | [] => .ok ⟨whole.value, .ofList (whole.names.map fun name => (name, 0))⟩
      | token :: _ =>
          if token.kind = .closing then .error .surplusClosing
          else .error (.trailingToken token.text)

def ofText (registry : Registry) (text : String) : Except Failure Parsed :=
  ofTokens registry (Token.ofText text)

end Parsed

end Formula
