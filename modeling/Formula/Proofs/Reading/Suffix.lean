import Formula.Proofs.Reading.Inversion

/-!
# What is left is a tail

Every successful reading leaves a tail of the tokens it started on.
-/

namespace Formula

namespace Reading

variable {registry : Registry}

theorem Marked.suffix {tree result : Expression} {tokens rest : List Token}
    (h : Marked tree tokens result rest) : rest <:+ tokens := by
  cases h with
  | factorial mark => exact mark ▸ List.suffix_cons _ _
  | plain => exact List.suffix_refl _

mutual

theorem operandForm_suffix {tokens rest : List Token} {tree : Expression}
    {names : List String} (form : OperandForm registry tokens tree names rest) :
    rest <:+ tokens := by
  cases form with
  | number numeral marked => exact marked.suffix.trans (List.suffix_cons _ _)
  | leaf uncalled marked => exact marked.suffix.trans (List.suffix_cons _ _)
  | @call _ _ _ inner after _ _ args read close arity marked =>
      have hinner := arguments_suffix read
      rw [close] at hinner
      have hafter : after <:+ inner := (List.suffix_cons _ _).trans hinner
      exact marked.suffix.trans
        (hafter.trans ((List.suffix_cons _ _).trans (List.suffix_cons _ _)))
  | @group _ _ inner _ reading read close =>
      have hinner := operation_suffix read
      rw [close] at hinner
      exact ((List.suffix_cons _ _).trans hinner).trans (List.suffix_cons _ _)
  | @negative inner reading negates read =>
      exact (operandForm_suffix (operandForm_of_ok read)).trans (List.suffix_cons _ _)
termination_by 3 * tokens.length

theorem operation_suffix {floor : Nat} {tokens : List Token}
    {reading : Reading Expression tokens.length}
    (h : operation registry floor tokens = .ok reading) : reading.rest <:+ tokens := by
  rcases operation_eq_ok h with ⟨left, hleft, hmore⟩
  exact (operators_suffix hmore).trans (operandForm_suffix (operandForm_of_ok hleft))
termination_by 3 * tokens.length + 1
decreasing_by
  · have := left.shorter
    omega
  · omega

theorem operators_suffix {bound floor : Nat} {left reading : Reading Expression bound}
    (h : operators registry floor left = .ok reading) : reading.rest <:+ left.rest := by
  rcases operators_eq_ok h with
    ⟨rfl, -⟩ | ⟨operator, after, right, hshorter, hrest, -, hright, hnext⟩
  · exact List.suffix_refl _
  · have hmore := operators_suffix hnext
    rw [hrest]
    exact (hmore.trans (operation_suffix hright)).trans (List.suffix_cons _ _)
termination_by 3 * left.rest.length
decreasing_by
  · have := right.shorter
    simp only [hrest, List.length_cons]
    omega
  · simp only [hrest, List.length_cons]
    omega

theorem arguments_suffix {tokens : List Token} {args : Reading (List Expression) tokens.length}
    (h : arguments registry tokens = .ok args) : args.rest <:+ tokens := by
  rcases arguments_eq_ok h with ⟨first, hfirst, hcases⟩
  have htokens := operation_suffix hfirst
  rcases hcases with ⟨-, -, hrest⟩ | ⟨text, more, others, hrest, hothers, -, -, hargs⟩
  · exact hrest ▸ htokens
  · rw [hrest] at htokens
    rw [hargs]
    exact (arguments_suffix hothers).trans ((List.suffix_cons _ _).trans htokens)
termination_by 3 * tokens.length + 2
decreasing_by
  · omega
  · have hshorter := first.shorter
    rw [hrest, List.length_cons] at hshorter
    omega

end

theorem operand_suffix {tokens : List Token} {reading : Reading Expression tokens.length}
    (h : operand registry tokens = .ok reading) : reading.rest <:+ tokens :=
  operandForm_suffix (operandForm_of_ok h)

end Reading

end Formula
