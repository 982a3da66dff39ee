import Formula.Proofs.Reading.Inversion

/-!
# Refusals

The causes for which reading can fail, whatever the tokens and the registry are. None of
them is a cause that only a value can have, so a text is never refused for what it would
evaluate to.
-/

namespace Formula

namespace Failure

/-- Whether reading can fail for this cause. -/
def isRefusal : Failure → Bool
  | endOfTokens | invalidNumeral _ | unexpectedToken _ | unexpectedOperator _
  | trailingToken _ | danglingOperator _ | leadingFactorial | detachedFactorial
  | emptyGroup | unclosedGroup | surplusClosing | unknownOperator _ | unknownFunction _
  | noArguments _ | argumentCount _ _ _ => true
  | _ => false

end Failure

/-- The classes of the causes for which reading can fail. -/
def FailureCode.ofReading : List FailureCode :=
  [.malformed, .unmatchedGroup, .emptyGroup, .unknownOperator, .unknownFunction, .argumentCount]

theorem Failure.code_mem_ofReading {failure : Failure} (h : failure.isRefusal = true) :
    failure.code ∈ FailureCode.ofReading := by
  revert h
  cases failure <;> simp [Failure.isRefusal, Failure.code, FailureCode.ofReading]

namespace Reading

variable {registry : Registry} {bound : Nat} {failure : Failure}

theorem isRefusal_of_countFailure? {name : String} {given : Nat}
    (h : countFailure? registry name given = some failure) : failure.isRefusal = true := by
  unfold countFailure? at h
  split at h
  · split at h <;> cases h
    rfl
  · cases h

theorem isRefusal_of_closed {α : Type} {reading : Reading α bound}
    (h : reading.closed = .error failure) : failure.isRefusal = true := by
  unfold closed at h
  split at h <;> cases h
  rfl

theorem isRefusal_of_called {name : String} {args : Reading (List Expression) bound}
    (h : called registry name args = .error failure) : failure.isRefusal = true := by
  unfold called at h
  split at h
  · rename_i hclosed
    cases h
    exact isRefusal_of_closed hclosed
  · split at h
    · rename_i hcount
      cases h
      exact isRefusal_of_countFailure? hcount
    · cases h

/-! ## Operands, by the kind of their first token -/

theorem isRefusal_of_operand_name {name : String} {rest : List Token}
    (harguments : ∀ inner, inner.length < rest.length → ∀ failure,
      arguments registry inner = .error failure → failure.isRefusal = true)
    (h : operand registry (⟨.name, name⟩ :: rest) = .error failure) :
    failure.isRefusal = true := by
  rw [operand] at h
  simp only at h
  split at h
  · cases h
  · rename_i inner hinner
    split at h
    · cases h
      rfl
    · split at h
      · cases h
        rfl
      · split at h
        · rename_i hargs
          cases h
          exact harguments inner.val inner.property _ hargs
        · exact isRefusal_of_called h

theorem isRefusal_of_operand_opening {text : String} {rest : List Token}
    (hoperation : ∀ failure, operation registry 0 rest = .error failure →
      failure.isRefusal = true)
    (h : operand registry (⟨.opening, text⟩ :: rest) = .error failure) :
    failure.isRefusal = true := by
  rw [operand] at h
  simp only at h
  split at h
  · cases h
    rfl
  · split at h
    · rename_i hinner
      cases h
      exact hoperation _ hinner
    · exact isRefusal_of_closed h

theorem isRefusal_of_operand_operator {text : String} {rest : List Token}
    (hoperand : ∀ failure, operand registry rest = .error failure → failure.isRefusal = true)
    (h : operand registry (⟨.operator, text⟩ :: rest) = .error failure) :
    failure.isRefusal = true := by
  rw [operand] at h
  simp only at h
  split at h
  · split at h
    · rename_i hcount
      cases h
      exact isRefusal_of_countFailure? hcount
    · split at h
      · rename_i hinner
        cases h
        exact hoperand _ hinner
      · cases h
  · split at h <;> cases h <;> rfl

/-! ## All readings -/

-- By the recursion of the reader: a failure is passed on or is one of the refusals.
mutual

theorem isRefusal_of_operand (tokens : List Token) {failure : Failure}
    (h : operand registry tokens = .error failure) : failure.isRefusal = true := by
  match tokens with
  | [] =>
      rw [operand] at h
      cases h
      rfl
  | ⟨kind, text⟩ :: rest =>
      cases kind with
      | number =>
          rw [operand] at h
          simp only at h
          split at h <;> cases h
          rfl
      | name => exact isRefusal_of_operand_name (fun inner _ _ => isRefusal_of_arguments inner) h
      | opening => exact isRefusal_of_operand_opening (fun _ => isRefusal_of_operation 0 rest) h
      | operator => exact isRefusal_of_operand_operator (fun _ => isRefusal_of_operand rest) h
      | closing | separator | function =>
          rw [operand] at h
          cases h
          rfl
termination_by 3 * tokens.length

theorem isRefusal_of_operation (floor : Nat) (tokens : List Token) {failure : Failure}
    (h : operation registry floor tokens = .error failure) : failure.isRefusal = true := by
  rw [operation] at h
  split at h
  · rename_i hleft
    cases h
    exact isRefusal_of_operand tokens hleft
  · rename_i left hleft
    have hshorter := left.shorter
    exact isRefusal_of_operators floor left h
termination_by 3 * tokens.length + 1

theorem isRefusal_of_operators {bound : Nat} (floor : Nat) (left : Reading Expression bound)
    {failure : Failure} (h : operators registry floor left = .error failure) :
    failure.isRefusal = true := by
  match left with
  | ⟨value, names, [], hshorter⟩ =>
      rw [operators] at h
      cases h
  | ⟨value, names, token :: rest, hshorter⟩ =>
      rw [operators] at h
      split at h
      · cases h
      split at h
      · split at h <;> cases h
        rfl
      split at h
      · cases h
        rfl
      rename_i operator _
      split at h
      · cases h
      split at h
      · cases h
        rfl
      split at h
      · rename_i hright
        cases h
        exact isRefusal_of_operation operator.precedence rest hright
      · rename_i right hright
        have hlength := right.shorter
        exact isRefusal_of_operators floor _ h
termination_by 3 * left.rest.length

theorem isRefusal_of_arguments (tokens : List Token) {failure : Failure}
    (h : arguments registry tokens = .error failure) : failure.isRefusal = true := by
  rw [arguments] at h
  split at h
  · rename_i hfirst
    cases h
    exact isRefusal_of_operation 0 tokens hfirst
  · rename_i first hfirst
    have hshorter := first.shorter
    split at h
    · cases h
    · rename_i more hmore
      have hlength := more.property
      split at h
      · rename_i hothers
        cases h
        exact isRefusal_of_arguments more.val hothers
      · cases h
termination_by 3 * tokens.length + 2

end

end Reading

/-- A text is refused for a cause of a class. -/
def Parsed.RefusedAs (registry : Registry) (text : String) (code : FailureCode) : Prop :=
  ∃ failure, ofText registry text = .error failure ∧ failure.code = code

/-- A text is refused for one of the causes of reading. -/
theorem Parsed.isRefusal_of_ofText {registry : Registry} {text : String} {failure : Failure}
    (h : ofText registry text = .error failure) : failure.isRefusal = true := by
  unfold ofText ofTokens at h
  split at h
  · rename_i hwhole
    cases h
    exact Reading.isRefusal_of_operation 0 _ hwhole
  · split at h
    · cases h
    · split at h <;> cases h <;> rfl

end Formula
