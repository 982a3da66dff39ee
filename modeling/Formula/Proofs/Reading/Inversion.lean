import Formula.Expression.Reading
import Formula.Proofs.Reading.Grammar

/-!
# How readings come about

For each function of the reader, everything a successful reading can have been: what
its tokens start with, which readings it rests on, and what it leaves.
-/

namespace Formula

namespace Operator

theorem symbol_injective {operator other : Operator} (h : operator.symbol = other.symbol) :
    operator = other := by
  have hsome := ofSymbol?_symbol operator
  rw [h, ofSymbol?_symbol] at hsome
  exact (Option.some.inj hsome).symm

theorem symbol_ne_factorialMark (operator : Operator) :
    operator.symbol ≠ Token.factorialMark := by
  cases operator <;> decide

end Operator

namespace Token

theorem isOperator_iff {token : Token} {symbol : String} :
    token.isOperator symbol = true ↔ token = ⟨.operator, symbol⟩ := by
  cases token
  simp [isOperator]

theorem after?_eq_none_iff {accepts : Token → Bool} {tokens : List Token} :
    after? accepts tokens = none ↔ ∀ token ∈ tokens.head?, accepts token = false := by
  cases tokens with
  | nil => simp [after?]
  | cons token rest => simp [after?]

theorem after?_eq_some {accepts : Token → Bool} {tokens : List Token}
    {rest : { rest : List Token // rest.length < tokens.length }}
    (h : after? accepts tokens = some rest) :
    ∃ token, tokens = token :: rest.val ∧ accepts token = true := by
  cases tokens with
  | nil => simp [after?] at h
  | cons token tail =>
      simp only [after?] at h
      split at h
      · cases h
        exact ⟨token, rfl, by assumption⟩
      · cases h

theorem afterKind?_eq_none_iff {kind : TokenKind} {tokens : List Token} :
    afterKind? kind tokens = none ↔ ∀ token ∈ tokens.head?, token.kind ≠ kind := by
  simp [afterKind?, after?_eq_none_iff]

theorem afterKind?_eq_some {kind : TokenKind} {tokens : List Token}
    {rest : { rest : List Token // rest.length < tokens.length }}
    (h : afterKind? kind tokens = some rest) :
    ∃ token, tokens = token :: rest.val ∧ token.kind = kind := by
  rcases after?_eq_some h with ⟨token, htokens, haccepts⟩
  exact ⟨token, htokens, by simpa using haccepts⟩

@[simp] theorem afterKind?_cons_self (kind : TokenKind) (text : String) (rest : List Token) :
    afterKind? kind (⟨kind, text⟩ :: rest) = some ⟨rest, Nat.lt_succ_self _⟩ := by
  simp [afterKind?, after?]

end Token

namespace Reading

variable {registry : Registry} {bound : Nat}

theorem countFailure?_eq_none_iff {name : String} {given : Nat} :
    countFailure? registry name given = none ↔
      registry.arity? name = none ∨ registry.arity? name = some given := by
  unfold countFailure?
  cases registry.arity? name with
  | none => simp
  | some arity => by_cases h : arity = given <;> simp [h]

/-- Either a factorial mark is taken up, or none follows and nothing changes. -/
inductive Marked (tree : Expression) (rest : List Token) : Expression → List Token → Prop
  | factorial {after : List Token} (mark : rest = Token.factorial :: after) :
      Marked tree rest (.call Token.factorialMark [tree]) after
  | plain (unmarked : Token.factorial ∉ rest.head?) : Marked tree rest tree rest

theorem marked_withFactorial (reading : Reading Expression bound) :
    (withFactorial reading).names = reading.names ∧
      Marked reading.value reading.rest (withFactorial reading).value
        (withFactorial reading).rest := by
  unfold withFactorial
  split
  · rename_i hnone
    refine ⟨rfl, .plain fun hmem => ?_⟩
    have hrefused := Token.after?_eq_none_iff.1 hnone _ hmem
    have haccepts : Token.factorial.isOperator Token.factorialMark = true :=
      Token.isOperator_iff.2 rfl
    cases haccepts.symm.trans hrefused
  · rename_i rest hsome
    rcases Token.after?_eq_some hsome with ⟨token, htokens, haccepts⟩
    have heq : token = Token.factorial := Token.isOperator_iff.1 haccepts
    subst heq
    exact ⟨rfl, .factorial htokens⟩

theorem closed_eq_ok {α : Type} {reading result : Reading α bound}
    (h : reading.closed = .ok result) :
    result.value = reading.value ∧ result.names = reading.names ∧
      ∃ text, reading.rest = ⟨.closing, text⟩ :: result.rest := by
  unfold closed at h
  split at h
  · cases h
  · rename_i outer houter
    cases h
    rcases Token.afterKind?_eq_some houter with ⟨⟨kind, text⟩, htokens, rfl⟩
    exact ⟨rfl, rfl, text, htokens⟩

/-! ## Operands -/

/-- The ways an operand is read, by the token it starts with. -/
inductive OperandForm (registry : Registry) :
    List Token → Expression → List String → List Token → Prop
  | number {text : String} {tokens rest : List Token} {value : Float} {tree : Expression}
      (numeral : Decimal.read? text.toList = some value)
      (marked : Marked (.number value) tokens tree rest) :
      OperandForm registry (⟨.number, text⟩ :: tokens) tree [] rest
  | leaf {name : String} {tokens rest : List Token} {tree : Expression}
      (uncalled : ∀ token ∈ tokens.head?, token.kind ≠ .opening)
      (marked : Marked (leaf registry name) tokens tree rest) :
      OperandForm registry (⟨.name, name⟩ :: tokens) tree (leafNames registry name) rest
  | call {name opening closing : String} {inner after rest : List Token}
      {tree : Expression} {args : Reading (List Expression) inner.length}
      (read : arguments registry inner = .ok args)
      (close : args.rest = ⟨.closing, closing⟩ :: after)
      (arity : registry.arity? name = some args.value.length)
      (marked : Marked (.call name args.value) after tree rest) :
      OperandForm registry (⟨.name, name⟩ :: ⟨.opening, opening⟩ :: inner) tree args.names rest
  | group {opening closing : String} {inner rest : List Token}
      {reading : Reading Expression inner.length}
      (read : operation registry 0 inner = .ok reading)
      (close : reading.rest = ⟨.closing, closing⟩ :: rest) :
      OperandForm registry (⟨.opening, opening⟩ :: inner) reading.value reading.names rest
  | negative {tokens : List Token} {reading : Reading Expression tokens.length}
      (negates : Grammar.Negates registry)
      (read : operand registry tokens = .ok reading) :
      OperandForm registry (Token.minus :: tokens) (.call Token.minusMark [reading.value])
        reading.names reading.rest

theorem OperandForm.head {tokens rest : List Token} {tree : Expression}
    {names : List String} (form : OperandForm registry tokens tree names rest) :
    tokens ≠ [] ∧ Token.afterKind? .closing tokens = none := by
  cases form <;> simp [Token.afterKind?_eq_none_iff, Token.minus]

theorem called_eq_ok {name : String} {args : Reading (List Expression) bound}
    {result : Reading Expression bound} (hknown : registry.containsFunction name = true)
    (h : called registry name args = .ok result) :
    result.names = args.names ∧ registry.arity? name = some args.value.length ∧
      ∃ text after, args.rest = ⟨.closing, text⟩ :: after ∧
        Marked (.call name args.value) after result.value result.rest := by
  unfold called at h
  split at h
  · cases h
  · rename_i closed hclosed
    rcases closed_eq_ok hclosed with ⟨hvalue, hnames, text, hrest⟩
    split at h
    · cases h
    · rename_i hcount
      cases h
      obtain ⟨hmarkedNames, hmarked⟩ := marked_withFactorial
        ⟨.call name closed.value, closed.names, closed.rest, closed.shorter⟩
      have harity : registry.arity? name = some args.value.length := by
        rw [← hvalue]
        refine (countFailure?_eq_none_iff.1 hcount).resolve_left fun hnone => ?_
        simp [Registry.containsFunction, Table.contains, Registry.arity?,
          Registry.function?] at hknown hnone
        simp [hnone] at hknown
      exact ⟨hmarkedNames.trans hnames, harity, text, closed.rest, hrest, hvalue ▸ hmarked⟩

theorem operandForm_of_number {text : String} {rest : List Token}
    {reading : Reading Expression (rest.length + 1)}
    (h : operand registry (⟨.number, text⟩ :: rest) = .ok reading) :
    OperandForm registry (⟨.number, text⟩ :: rest) reading.value reading.names reading.rest := by
  rw [operand] at h
  simp only at h
  split at h
  · cases h
  · rename_i value hvalue
    cases h
    obtain ⟨hnames, hmarked⟩ := marked_withFactorial
      ⟨.number value, [], rest, Nat.lt_succ_self rest.length⟩
    rw [hnames]
    exact .number hvalue hmarked

theorem operandForm_of_name {name : String} {rest : List Token}
    {reading : Reading Expression (rest.length + 1)}
    (h : operand registry (⟨.name, name⟩ :: rest) = .ok reading) :
    OperandForm registry (⟨.name, name⟩ :: rest) reading.value reading.names reading.rest := by
  rw [operand] at h
  simp only at h
  split at h
  · rename_i hnone
    cases h
    obtain ⟨hnames, hmarked⟩ := marked_withFactorial
      ⟨leaf registry name, leafNames registry name, rest, Nat.lt_succ_self rest.length⟩
    rw [hnames]
    exact .leaf (Token.afterKind?_eq_none_iff.1 hnone) hmarked
  · rename_i found hfound
    rcases found with ⟨inner, hshorter⟩
    rcases Token.afterKind?_eq_some hfound with ⟨⟨_, openText⟩, hrest, rfl⟩
    change rest = _ :: inner at hrest
    subst hrest
    split at h
    · cases h
    · rename_i hknown
      split at h
      · cases h
      · split at h
        · cases h
        · rename_i args hargs
          obtain ⟨hnames, harity, closeText, after, hrest, hmarked⟩ :=
            called_eq_ok (by simpa using hknown) h
          rw [hnames]
          exact .call hargs hrest harity hmarked

theorem operandForm_of_operator {text : String} {rest : List Token}
    {reading : Reading Expression (rest.length + 1)}
    (h : operand registry (⟨.operator, text⟩ :: rest) = .ok reading) :
    OperandForm registry (⟨.operator, text⟩ :: rest) reading.value reading.names
      reading.rest := by
  rw [operand] at h
  simp only at h
  split at h
  · rename_i hminus
    have heq : text = Token.minusMark := hminus
    subst heq
    split at h
    · cases h
    · rename_i hcount
      split at h
      · cases h
      · rename_i inner hinner
        cases h
        exact .negative (countFailure?_eq_none_iff.1 hcount) hinner
  · split at h <;> cases h

theorem operandForm_of_opening {text : String} {rest : List Token}
    {reading : Reading Expression (rest.length + 1)}
    (h : operand registry (⟨.opening, text⟩ :: rest) = .ok reading) :
    OperandForm registry (⟨.opening, text⟩ :: rest) reading.value reading.names
      reading.rest := by
  rw [operand] at h
  simp only at h
  split at h
  · cases h
  · split at h
    · cases h
    · rename_i inner hinner
      rcases closed_eq_ok h with ⟨hvalue, hnames, closeText, hrest⟩
      rw [hvalue, hnames]
      exact .group hinner hrest

theorem operandForm_of_ok {tokens : List Token} {reading : Reading Expression tokens.length}
    (h : operand registry tokens = .ok reading) :
    OperandForm registry tokens reading.value reading.names reading.rest := by
  match tokens with
  | [] => simp [operand] at h
  | ⟨kind, text⟩ :: rest =>
      cases kind with
      | number => exact operandForm_of_number h
      | name => exact operandForm_of_name h
      | operator => exact operandForm_of_operator h
      | opening => exact operandForm_of_opening h
      | closing | separator | function =>
          rw [operand] at h
          cases h

/-! ## Operations -/

/-- What makes a reading at this strength stop: no stronger operator comes next. -/
def Halts (floor : Nat) (rest : List Token) : Prop :=
  ∀ operator after, rest = Token.ofOperator operator :: after → operator.layer ≤ floor

theorem operation_eq_ok {floor : Nat} {tokens : List Token}
    {reading : Reading Expression tokens.length}
    (h : operation registry floor tokens = .ok reading) :
    ∃ left, operand registry tokens = .ok left ∧ operators registry floor left = .ok reading := by
  rw [operation] at h
  split at h
  · cases h
  · rename_i left hleft
    exact ⟨left, hleft, h⟩

theorem operators_eq_ok {floor : Nat} {left reading : Reading Expression bound}
    (h : operators registry floor left = .ok reading) :
    (reading = left ∧ Halts floor left.rest) ∨
      ∃ operator after right shorter,
        left.rest = Token.ofOperator operator :: after ∧ floor < operator.layer ∧
          operation registry operator.layer after = .ok right ∧
          operators registry floor
            ⟨.binary operator left.value right.value, right.names ++ left.names, right.rest,
              shorter⟩ = .ok reading := by
  rcases left with ⟨value, names, tokens, hshorter⟩
  match tokens with
  | [] =>
      rw [operators] at h
      cases h
      exact .inl ⟨rfl, fun operator after hrest => by cases hrest⟩
  | ⟨kind, text⟩ :: rest =>
      rw [operators] at h
      split at h
      · rename_i hkind
        cases h
        refine .inl ⟨rfl, fun operator after hrest => ?_⟩
        have hoperator := congrArg Token.kind (List.cons.inj hrest).1
        exact absurd (hoperator.trans (Token.kind_ofOperator operator)) hkind
      · rename_i hkind
        have heq : kind = .operator := by simpa using hkind
        subst heq
        split at h
        · rename_i hmark
          have heq : text = Token.factorialMark := hmark
          subst heq
          split at h
          · cases h
            refine .inl ⟨rfl, fun operator after hrest => ?_⟩
            have hmark := congrArg Token.text (List.cons.inj hrest).1
            rw [Token.text_ofOperator] at hmark
            exact (operator.symbol_ne_factorialMark hmark.symm).elim
          · cases h
        · split at h
          · cases h
          · rename_i operator hoperator
            have heq : operator.symbol = text := Operator.symbol_of_ofSymbol? hoperator
            subst heq
            split at h
            · rename_i hle
              cases h
              refine .inl ⟨rfl, fun other after hrest => ?_⟩
              have hsymbol := congrArg Token.text (List.cons.inj hrest).1
              rw [Token.text_ofOperator] at hsymbol
              rw [← Operator.symbol_injective hsymbol, ← Operator.precedence_eq_layer]
              exact hle
            · rename_i hlt
              split at h
              · cases h
              · split at h
                · cases h
                · rename_i right hright
                  rw [← Token.ofOperator_eq]
                  rw [Operator.precedence_eq_layer] at hlt hright
                  exact .inr ⟨operator, rest, right, _, rfl, Nat.lt_of_not_le hlt, hright, h⟩

theorem arguments_eq_ok {tokens : List Token}
    {args : Reading (List Expression) tokens.length}
    (h : arguments registry tokens = .ok args) :
    ∃ first, operation registry 0 tokens = .ok first ∧
      ((args.value = [first.value] ∧ args.names = first.names ∧ args.rest = first.rest) ∨
        ∃ text more others, first.rest = ⟨.separator, text⟩ :: more ∧
          arguments registry more = .ok others ∧ args.value = first.value :: others.value ∧
          args.names = others.names ++ first.names ∧ args.rest = others.rest) := by
  rw [arguments] at h
  split at h
  · cases h
  · rename_i first hfirst
    refine ⟨first, hfirst, ?_⟩
    split at h
    · cases h
      exact .inl ⟨rfl, rfl, rfl⟩
    · rename_i more hmore
      split at h
      · cases h
      · rename_i others hothers
        cases h
        rcases Token.afterKind?_eq_some hmore with ⟨⟨_, text⟩, hrest, rfl⟩
        exact .inr ⟨text, more.val, others, hrest, hothers, rfl, rfl, rfl⟩

end Reading

end Formula
