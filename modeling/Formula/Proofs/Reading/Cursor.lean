import Formula.Expression.Reading
import Formula.Proofs.Traced

/-!
# Reading with a cursor

The reader of expressions as procedures that move a cursor over a fixed token list.
Nothing here makes them end. A procedure starts others through the runner it is given,
which is one level further down, and a loop is given a number of rounds; where levels or
rounds run out, the run is exhausted. Every start of a procedure is noted.

The main statement of this module holds at any bounds: a run that succeeds leaves the
cursor further on and within the list, and every procedure starts further on than the
one that started it, but for the first operand of an operation.
-/

namespace Formula

namespace Cursor

/-- A procedure of the reader. -/
inductive Procedure where
  | operation (floor : Nat)
  | operand
  /-- A call of a name, from the parenthesis that opens its arguments. -/
  | call (name : String)

/-- A procedure and the cursor it starts at. -/
structure Activation where
  procedure : Procedure
  start : Nat

/-- One activation starts another. -/
structure Nesting where
  caller : Activation
  callee : Activation

/-- Why a run has no passage: a failure, or a bound that was too low. -/
inductive Halt where
  | failed (failure : Failure)
  | exhausted

/-- What was read up to a cursor, with the variables met on the way, the latest first. -/
structure Passage (α : Type) where
  value : α
  names : List String
  cursor : Nat

abbrev Run := Traced Nesting Halt

/-- What a procedure starts others with. -/
abbrev Runner := Activation → Run (Passage Expression)

def refuse {α : Type} (failure : Failure) : Run α :=
  .fail (.failed failure)

section

variable (registry : Registry) (tokens : List Token)

def kindAt (cursor : Nat) : Option TokenKind :=
  tokens[cursor]?.map Token.kind

/-- Step over the parenthesis that has to close what was read. -/
def closed {α : Type} (passage : Passage α) : Run (Passage α) :=
  if kindAt tokens passage.cursor = some .closing then
    pure { passage with cursor := passage.cursor + 1 }
  else refuse .unclosedGroup

/-- Take up the factorial mark that may follow a number, a name or a call. -/
def withFactorial (passage : Passage Expression) : Passage Expression :=
  if tokens[passage.cursor]?.any fun token => token.isOperator Token.factorialMark then
    ⟨.call Token.factorialMark [passage.value], passage.names, passage.cursor + 1⟩
  else passage

variable (below : Runner)

/-- Start a procedure one level further down. -/
def start (caller callee : Activation) : Run (Passage Expression) :=
  .noting ⟨caller, callee⟩ (below callee)

/-! ## The procedures -/

def operand (cursor : Nat) : Run (Passage Expression) :=
  match tokens[cursor]? with
  | none => refuse .endOfTokens
  | some token =>
      match token.kind with
      | .number =>
          match Decimal.read? token.text.toList with
          | none => refuse (.invalidNumeral token.text)
          | some value => pure (withFactorial tokens ⟨.number value, [], cursor + 1⟩)
      | .name =>
          if kindAt tokens (cursor + 1) = some .opening then do
            let call ← start below ⟨.operand, cursor⟩ ⟨.call token.text, cursor + 1⟩
            return withFactorial tokens call
          else
            pure (withFactorial tokens
              ⟨Reading.leaf registry token.text, Reading.leafNames registry token.text,
                cursor + 1⟩)
      | .opening =>
          if kindAt tokens (cursor + 1) = some .closing then refuse .emptyGroup
          else do
            let inner ← start below ⟨.operand, cursor⟩ ⟨.operation 0, cursor + 1⟩
            closed tokens inner
      | .operator =>
          if token.text = Token.minusMark then
            match Reading.countFailure? registry Token.minusMark 1 with
            | some failure => refuse failure
            | none => do
                let inner ← start below ⟨.operand, cursor⟩ ⟨.operand, cursor + 1⟩
                return ⟨.call Token.minusMark [inner.value], inner.names, inner.cursor⟩
          else if token.text = Token.factorialMark then refuse .leadingFactorial
          else refuse (.unexpectedOperator token.text)
      | _ => refuse (.unexpectedToken token.text)

/-- How an operation goes on at a cursor: it fails, stops, or reads on past an operator. -/
def continuation (floor cursor : Nat) : Except Failure (Option Operator) :=
  match tokens[cursor]? with
  | none => .ok none
  | some token =>
      if token.kind ≠ .operator then .ok none
      else if token.text = Token.factorialMark then
        if Reading.factorialPrecedence ≤ floor then .ok none else .error .detachedFactorial
      else
        match Operator.ofSymbol? token.text with
        | none => .error (.unknownOperator token.text)
        | some operator =>
            if operator.precedence ≤ floor then .ok none
            else if tokens[cursor + 1]?.isNone then .error (.danglingOperator token.text)
            else .ok (some operator)

/-- The loop of an operation: the operators stronger than `floor` with their right operands. -/
def operators (caller : Activation) (floor : Nat) :
    Nat → Passage Expression → Run (Passage Expression)
  | rounds, left =>
      match continuation tokens floor left.cursor with
      | .error failure => refuse failure
      | .ok none => pure left
      | .ok (some operator) =>
          match rounds with
          | 0 => .fail .exhausted
          | rounds + 1 => do
              let right ← start below caller ⟨.operation operator.precedence, left.cursor + 1⟩
              operators caller floor rounds
                ⟨.binary operator left.value right.value, right.names ++ left.names,
                  right.cursor⟩

/-- The first operand of an operation takes no level of its own. -/
def operation (floor cursor : Nat) : Run (Passage Expression) :=
  if tokens[cursor]?.isNone then refuse .endOfTokens
  else do
    let caller : Activation := ⟨.operation floor, cursor⟩
    let left ← .noting ⟨caller, ⟨.operand, cursor⟩⟩ (operand registry tokens below cursor)
    operators tokens below caller floor (tokens.length - left.cursor) left

/-- The loop of a call: an argument, and after each separator one more. -/
def arguments (caller : Activation) : Nat → Nat → Run (Passage (List Expression))
  | rounds, cursor => do
      let first ← start below caller ⟨.operation 0, cursor⟩
      if kindAt tokens first.cursor = some .separator then
        match rounds with
        | 0 => .fail .exhausted
        | rounds + 1 =>
            let others ← arguments caller rounds (first.cursor + 1)
            return ⟨first.value :: others.value, others.names ++ first.names, others.cursor⟩
      else return ⟨[first.value], first.names, first.cursor⟩

def call (name : String) (cursor : Nat) : Run (Passage Expression) :=
  if !registry.containsFunction name then refuse (.unknownFunction name)
  else if kindAt tokens (cursor + 1) = some .closing then refuse (.noArguments name)
  else do
    let args ← arguments tokens below ⟨.call name, cursor⟩ (tokens.length - cursor) (cursor + 1)
    let args ← closed tokens args
    match Reading.countFailure? registry name args.value.length with
    | some failure => refuse failure
    | none => return ⟨.call name args.value, args.names, args.cursor⟩

/-- Carry out a procedure that starts others with a runner. -/
def perform : Runner
  | ⟨.operation floor, cursor⟩ => operation registry tokens below floor cursor
  | ⟨.operand, cursor⟩ => operand registry tokens below cursor
  | ⟨.call name, cursor⟩ => call registry tokens below name cursor

end

/-- Carry out a procedure on so many levels, the first of which is its own. -/
def run (registry : Registry) (tokens : List Token) : Nat → Runner
  | 0 => fun _ => .fail .exhausted
  | levels + 1 => perform registry tokens (run registry tokens levels)

/-! ## Progress -/

/-- A procedure starts further on than its caller; only the first operand of an operation
starts where the operation does. -/
def Nesting.Forward (nesting : Nesting) : Prop :=
  nesting.caller.start < nesting.callee.start ∨
    ∃ floor cursor, nesting = ⟨⟨.operation floor, cursor⟩, ⟨.operand, cursor⟩⟩

/-- A run that goes forward, and that leaves a cursor beyond `origin` and within the list. -/
abbrev Advances {α : Type} (tokens : List Token) (origin : Nat) (run : Run (Passage α)) :
    Prop :=
  run.Ensures Nesting.Forward fun passage =>
    origin < passage.cursor ∧ passage.cursor ≤ tokens.length

section

variable {registry : Registry} {tokens : List Token} {below : Runner} {origin : Nat}

theorem lt_length_of_kindAt {cursor : Nat} {kind : TokenKind}
    (h : kindAt tokens cursor = some kind) : cursor < tokens.length := by
  obtain ⟨token, htoken, -⟩ := Option.map_eq_some_iff.1 h
  exact (List.getElem?_eq_some_iff.1 htoken).1

theorem advances_refuse {α : Type} {failure : Failure} :
    Advances tokens origin (refuse failure : Run (Passage α)) :=
  .fail _

theorem advances_closed {α : Type} {passage : Passage α} (horigin : origin < passage.cursor) :
    Advances tokens origin (closed tokens passage) := by
  unfold closed
  split
  · rename_i hkind
    have hlt := lt_length_of_kindAt hkind
    have hnext : origin < passage.cursor + 1 ∧ passage.cursor + 1 ≤ tokens.length := by omega
    exact .pure hnext
  · exact advances_refuse

theorem advances_withFactorial {passage : Passage Expression}
    (horigin : origin < passage.cursor) (hbound : passage.cursor ≤ tokens.length) :
    Advances tokens origin (pure (withFactorial tokens passage)) := by
  unfold withFactorial
  split
  · rename_i hmark
    obtain ⟨token, htoken, -⟩ := (Option.any_eq_true _ _).1 hmark
    have hlt := (List.getElem?_eq_some_iff.1 htoken).1
    have hnext : origin < passage.cursor + 1 ∧ passage.cursor + 1 ≤ tokens.length := by omega
    exact .pure hnext
  · exact .pure ⟨horigin, hbound⟩

variable (hbelow : ∀ activation : Activation,
  Advances tokens activation.start (below activation))

include hbelow

theorem advances_start {caller : Activation} {procedure : Procedure} {cursor : Nat}
    (h : caller.start < cursor) :
    Advances tokens cursor (start below caller ⟨procedure, cursor⟩) :=
  .noting (.inl h) (hbelow ⟨procedure, cursor⟩)

theorem advances_operand (cursor : Nat) :
    Advances tokens cursor (operand registry tokens below cursor) := by
  unfold operand
  split
  · exact advances_refuse
  rename_i token htoken
  have hlt := (List.getElem?_eq_some_iff.1 htoken).1
  have hnested (procedure : Procedure) :
      Advances tokens (cursor + 1)
        (start below ⟨.operand, cursor⟩ ⟨procedure, cursor + 1⟩) :=
    advances_start hbelow (Nat.lt_succ_self cursor)
  split
  · split
    · exact advances_refuse
    · exact advances_withFactorial (Nat.lt_succ_self cursor) hlt
  · split
    · refine (hnested _).bind fun call hcall => ?_
      exact advances_withFactorial (by omega) hcall.2
    · exact advances_withFactorial (Nat.lt_succ_self cursor) hlt
  · split
    · exact advances_refuse
    · refine (hnested _).bind fun inner hinner => ?_
      exact advances_closed (by omega)
  · split
    · split
      · exact advances_refuse
      · refine (hnested _).bind fun inner hinner => .pure ?_
        exact ⟨Nat.lt_of_succ_lt hinner.1, hinner.2⟩
    · split <;> exact advances_refuse
  · exact advances_refuse

theorem advances_operators {caller : Activation} {floor rounds : Nat}
    {left : Passage Expression} (horigin : caller.start < left.cursor)
    (hbound : left.cursor ≤ tokens.length) :
    Advances tokens caller.start (operators tokens below caller floor rounds left) := by
  induction rounds generalizing left with
  | zero =>
      unfold operators
      split
      · exact advances_refuse
      · exact .pure ⟨horigin, hbound⟩
      · exact .fail _
  | succ rounds ih =>
      unfold operators
      split
      · exact advances_refuse
      · exact .pure ⟨horigin, hbound⟩
      · refine (advances_start hbelow (Nat.lt_succ_of_lt horigin)).bind fun right hright => ?_
        exact ih (by simp only; omega) hright.2

theorem advances_operation (floor cursor : Nat) :
    Advances tokens cursor (operation registry tokens below floor cursor) := by
  unfold operation
  split
  · exact advances_refuse
  refine (Traced.Ensures.noting (.inr ⟨floor, cursor, rfl⟩)
    (advances_operand hbelow cursor)).bind fun left hleft => ?_
  exact advances_operators hbelow hleft.1 hleft.2

theorem advances_arguments {caller : Activation} {rounds cursor : Nat}
    (horigin : caller.start < cursor) :
    Advances tokens cursor (arguments tokens below caller rounds cursor) := by
  induction rounds generalizing cursor with
  | zero =>
      unfold arguments
      refine (advances_start hbelow horigin).bind fun first hfirst => ?_
      split
      · exact .fail _
      · exact .pure hfirst
  | succ rounds ih =>
      unfold arguments
      refine (advances_start hbelow horigin).bind fun first hfirst => ?_
      split
      · refine (ih (by omega)).bind fun others hothers => .pure ?_
        have hlt : cursor < others.cursor := by omega
        exact ⟨hlt, hothers.2⟩
      · exact .pure hfirst

theorem advances_call (name : String) (cursor : Nat) :
    Advances tokens cursor (call registry tokens below name cursor) := by
  unfold call
  split
  · exact advances_refuse
  split
  · exact advances_refuse
  refine (advances_arguments hbelow (Nat.lt_succ_self cursor)).bind fun args hargs => ?_
  have hclosed : Advances tokens cursor (closed tokens args) := advances_closed (by omega)
  refine hclosed.bind fun args hargs => ?_
  split
  · exact advances_refuse
  · exact .pure hargs

theorem advances_perform (activation : Activation) :
    Advances tokens activation.start (perform registry tokens below activation) := by
  rcases activation with ⟨procedure, cursor⟩
  cases procedure with
  | operation floor => exact advances_operation hbelow floor cursor
  | operand => exact advances_operand hbelow cursor
  | call name => exact advances_call hbelow name cursor

end

/-- On any number of levels, any tokens and from any cursor, a run goes forward. -/
theorem advances_run (registry : Registry) (tokens : List Token) (levels : Nat)
    (activation : Activation) :
    Advances tokens activation.start (run registry tokens levels activation) := by
  induction levels generalizing activation with
  | zero => exact .fail _
  | succ levels ih => exact advances_perform ih activation

end Cursor

end Formula
