import Formula.Proofs.Expression.Substitution
import Formula.Proofs.Reading.Soundness
import Formula.Proofs.Reading.Suffix

/-!
# Reading under two registries

Two registries read a token list alike when they agree on the arities of the names it
calls and when the leaves of the other names correspond under a substitution. Then the
two readers stop at the same token: with the same failure, or with trees and variables
that correspond.
-/

namespace Formula

/-- The tokens after which an operand starts. -/
inductive Token.OpensOperand : Token → Prop
  | opening (text : String) : OpensOperand ⟨.opening, text⟩
  | separator (text : String) : OpensOperand ⟨.separator, text⟩
  | operator (operator : Operator) : OpensOperand (Token.ofOperator operator)

theorem Token.OpensOperand.kind_ne_closing {token : Token} (h : token.OpensOperand) :
    token.kind ≠ .closing := by
  cases h <;> simp

namespace Reading

open Expression (substitute)

/-- All that a reader asks of its registry about a token list. A minus mark is a call only
where an operand starts, which the token before it decides. -/
structure Alike (registry other : Registry) (leaves : String → Expression)
    (tokens : List Token) : Prop where
  called : ∀ name opening after, ⟨.name, name⟩ :: ⟨.opening, opening⟩ :: after <:+ tokens →
    registry.arity? name = other.arity? name
  uncalled : ∀ name after, ⟨.name, name⟩ :: after <:+ tokens →
    (∀ token ∈ after.head?, token.kind ≠ .opening) →
      leaf registry name = substitute leaves (leaf other name)
  negated : ∀ token, token.OpensOperand → [token, Token.minus] <:+: tokens →
    registry.arity? Token.minusMark = other.arity? Token.minusMark

theorem Alike.suffix {registry other : Registry} {leaves : String → Expression}
    {tokens rest : List Token} (h : Alike registry other leaves tokens)
    (hrest : rest <:+ tokens) : Alike registry other leaves rest where
  called name opening after hafter := h.called name opening after (hafter.trans hrest)
  uncalled name after hafter := h.uncalled name after (hafter.trans hrest)
  negated token hopens hminus := h.negated token hopens (hminus.trans hrest.isInfix)

/-! ## Readings that correspond -/

section

variable {α : Type} {bound : Nat} (leaves : String → Expression)

/-- The variables met while reading the leaves of the variables met, the latest first. -/
def leavesNames (names : List String) : List String :=
  names.flatMap fun name => (leaves name).variableNames.reverse

theorem leavesNames_append (first second : List String) :
    leavesNames leaves (first ++ second) = leavesNames leaves first ++ leavesNames leaves second :=
  List.flatMap_append

/-- A reading with its value changed and its variables followed into the leaves. -/
def follow (change : α → α) (reading : Reading α bound) : Reading α bound :=
  ⟨change reading.value, leavesNames leaves reading.names, reading.rest, reading.shorter⟩

/-- The reading of a tree after a substitution. -/
abbrev onTree (reading : Reading Expression bound) : Reading Expression bound :=
  reading.follow leaves (substitute leaves)

/-- The reading of a list of trees after a substitution. -/
abbrev onTrees (reading : Reading (List Expression) bound) :
    Reading (List Expression) bound :=
  reading.follow leaves (List.map (substitute leaves))

theorem closed_follow (change : α → α) (reading : Reading α bound) :
    (reading.follow leaves change).closed = reading.closed.map (follow leaves change) := by
  simp only [closed, follow]
  cases Token.afterKind? .closing reading.rest <;> rfl

theorem withFactorial_onTree (reading : Reading Expression bound) :
    withFactorial (reading.onTree leaves) = (withFactorial reading).onTree leaves := by
  rcases reading with ⟨value, names, rest, shorter⟩
  cases hmark : Token.after? (fun token => token.isOperator Token.factorialMark) rest with
  | none => simp only [withFactorial, onTree, follow, hmark]
  | some after => simp [withFactorial, onTree, follow, hmark]

end

variable {registry other : Registry} {leaves : String → Expression}

theorem countFailure?_congr {name : String}
    (h : registry.arity? name = other.arity? name) (given : Nat) :
    countFailure? registry name given = countFailure? other name given := by
  simp only [countFailure?, h]

theorem containsFunction_congr {name : String}
    (h : registry.arity? name = other.arity? name) :
    registry.containsFunction name = other.containsFunction name := by
  rw [Registry.containsFunction_eq_isSome, h, Registry.containsFunction_eq_isSome]

theorem called_onTrees {bound : Nat} {name : String}
    (h : registry.arity? name = other.arity? name)
    (args : Reading (List Expression) bound) :
    called registry name (args.onTrees leaves) =
      (called other name args).map (onTree leaves) := by
  simp only [called, onTrees, closed_follow]
  cases args.closed with
  | error failure => rfl
  | ok closed =>
      simp only [Except.map, follow, List.length_map, countFailure?_congr h]
      cases countFailure? other name closed.value.length with
      | some failure => rfl
      | none =>
          have hmark := withFactorial_onTree leaves
            (⟨.call name closed.value, closed.names, closed.rest, closed.shorter⟩ :
              Reading Expression bound)
          simp only [onTree, follow, Expression.substitute_call] at hmark
          simp only [hmark]

/-! ## Operands, by the kind of their first token -/

theorem leafNames_of_leaf {name : String}
    (h : leaf registry name = substitute leaves (leaf other name)) :
    leafNames registry name = leavesNames leaves (leafNames other name) := by
  rw [leafNames_eq, h, leafNames_eq, Expression.variableNames_substitute, List.reverse_flatMap]
  rfl

theorem operand_number_alike (text : String) (rest : List Token) :
    operand registry (⟨.number, text⟩ :: rest) =
      (operand other (⟨.number, text⟩ :: rest)).map (onTree leaves) := by
  rw [operand.eq_def registry, operand.eq_def other]
  simp only
  cases Decimal.read? text.toList with
  | none => rfl
  | some value =>
      simp only [Except.map, ← withFactorial_onTree]
      simp [onTree, follow, leavesNames]

theorem operand_name_alike {name : String} {rest : List Token}
    (h : Alike registry other leaves (⟨.name, name⟩ :: rest))
    (harguments : ∀ opening inner, rest = ⟨.opening, opening⟩ :: inner →
      arguments registry inner = (arguments other inner).map (onTrees leaves)) :
    operand registry (⟨.name, name⟩ :: rest) =
      (operand other (⟨.name, name⟩ :: rest)).map (onTree leaves) := by
  rw [operand.eq_def registry, operand.eq_def other]
  simp only
  cases hopening : Token.afterKind? .opening rest with
  | none =>
      have hleaf := h.uncalled name rest (List.suffix_refl _)
        (Token.afterKind?_eq_none_iff.1 hopening)
      simp only [Except.map, ← withFactorial_onTree]
      simp only [onTree, follow, hleaf, leafNames_of_leaf hleaf]
  | some inner =>
      rcases inner with ⟨inner, hshorter⟩
      rcases Token.afterKind?_eq_some hopening with ⟨⟨_, opening⟩, hrest, rfl⟩
      change rest = _ :: inner at hrest
      subst hrest
      have harity := h.called name opening inner (List.suffix_refl _)
      simp only [containsFunction_congr harity, harguments opening inner rfl]
      split
      · rfl
      · split
        · rfl
        · cases arguments other inner with
          | error failure => rfl
          | ok args => exact called_onTrees harity (args.widen _)

theorem operand_opening_alike {text : String} {rest : List Token}
    (hoperation : operation registry 0 rest = (operation other 0 rest).map (onTree leaves)) :
    operand registry (⟨.opening, text⟩ :: rest) =
      (operand other (⟨.opening, text⟩ :: rest)).map (onTree leaves) := by
  rw [operand.eq_def registry, operand.eq_def other]
  simp only [hoperation]
  split
  · rfl
  · cases operation other 0 rest with
    | error failure => rfl
    | ok inner => exact closed_follow leaves _ (inner.widen _)

theorem operand_operator_alike {token : Token} {text : String} {rest : List Token}
    (hopens : token.OpensOperand)
    (h : Alike registry other leaves (token :: ⟨.operator, text⟩ :: rest))
    (hoperand : text = Token.minusMark →
      operand registry rest = (operand other rest).map (onTree leaves)) :
    operand registry (⟨.operator, text⟩ :: rest) =
      (operand other (⟨.operator, text⟩ :: rest)).map (onTree leaves) := by
  rw [operand.eq_def registry (_ :: _), operand.eq_def other (_ :: _)]
  by_cases hminus : text = Token.minusMark
  · subst hminus
    have harity := h.negated token hopens (List.prefix_append [token, Token.minus] rest).isInfix
    simp only [if_true, countFailure?_congr harity, hoperand rfl]
    cases countFailure? other Token.minusMark 1 with
    | some failure => rfl
    | none =>
        cases operand other rest with
        | error failure => rfl
        | ok inner => simp [Except.map, onTree, follow]
  · simp only [hminus, if_false]
    split <;> rfl

/-! ## Operators -/

theorem operators_cons_alike {bound floor : Nat} {value : Expression} {names : List String}
    {token : Token} {rest : List Token} {shorter : (token :: rest).length < bound}
    (hoperation : token.OpensOperand → ∀ strength, operation registry strength rest =
      (operation other strength rest).map (onTree leaves))
    (hoperators : ∀ next : Reading Expression bound, next.rest <:+ rest →
      operators registry floor (next.onTree leaves) =
        (operators other floor next).map (onTree leaves)) :
    operators registry floor (onTree leaves ⟨value, names, token :: rest, shorter⟩) =
      (operators other floor ⟨value, names, token :: rest, shorter⟩).map (onTree leaves) := by
  rw [operators.eq_def registry, operators.eq_def other]
  simp only [onTree, follow]
  by_cases hkind : token.kind = .operator
  · by_cases hmark : token.text = Token.factorialMark
    · simp only [hkind, hmark, ne_eq, not_true_eq_false, if_false, if_true]
      split <;> rfl
    · simp only [hkind, hmark, ne_eq, not_true_eq_false, if_false]
      cases hsymbol : Operator.ofSymbol? token.text with
      | none => rfl
      | some operator =>
          have htoken : token = Token.ofOperator operator := by
            rw [Token.ofOperator_eq, Operator.symbol_of_ofSymbol? hsymbol, ← hkind]
          simp only [hoperation (htoken ▸ .operator operator)]
          split
          · rfl
          · split
            · rfl
            · cases hright : operation other operator.precedence rest with
              | error failure => rfl
              | ok right =>
                  have hnext := hoperators
                    ⟨.binary operator value right.value, right.names ++ names, right.rest,
                      Nat.lt_trans right.shorter (Nat.lt_of_succ_lt shorter)⟩
                    (operation_suffix hright)
                  simp only [onTree, follow, Expression.substitute_binary,
                    leavesNames_append] at hnext
                  exact hnext
  · simp only [hkind, ne_eq, not_false_eq_true, if_true]
    rfl

/-! ## All readings -/

-- By the recursion of the reader; the four results of a list rest on those of its tails.
-- A list that starts with an operand comes with the token before it.
mutual

theorem operand_alike {before : Token} (hopens : before.OpensOperand) (tokens : List Token)
    (h : Alike registry other leaves (before :: tokens)) :
    operand registry tokens = (operand other tokens).map (onTree leaves) := by
  match tokens with
  | [] =>
      rw [operand.eq_def registry, operand.eq_def other]
      rfl
  | ⟨kind, text⟩ :: rest =>
      have hrest := h.suffix (List.suffix_cons before (⟨kind, text⟩ :: rest))
      cases kind with
      | number => exact operand_number_alike text rest
      | name =>
          refine operand_name_alike hrest fun opening inner hinner => ?_
          subst hinner
          exact arguments_alike (.opening opening) inner (hrest.suffix (List.suffix_cons _ _))
      | opening => exact operand_opening_alike (operation_alike (.opening text) 0 rest hrest)
      | operator =>
          refine operand_operator_alike hopens h fun hminus => ?_
          subst hminus
          exact operand_alike (.operator .subtract) rest hrest
      | closing | separator | function =>
          rw [operand.eq_def registry, operand.eq_def other]
          rfl
termination_by 3 * tokens.length

theorem operation_alike {before : Token} (hopens : before.OpensOperand) (floor : Nat)
    (tokens : List Token) (h : Alike registry other leaves (before :: tokens)) :
    operation registry floor tokens = (operation other floor tokens).map (onTree leaves) := by
  rw [operation, operation, operand_alike hopens tokens h]
  cases hleft : operand other tokens with
  | error failure => rfl
  | ok left =>
      have hlength := left.shorter
      exact operators_alike floor left
        (h.suffix ((operand_suffix hleft).trans (List.suffix_cons _ _)))
termination_by 3 * tokens.length + 1

theorem operators_alike {bound : Nat} (floor : Nat) (left : Reading Expression bound)
    (h : Alike registry other leaves left.rest) :
    operators registry floor (left.onTree leaves) =
      (operators other floor left).map (onTree leaves) := by
  match left with
  | ⟨value, names, [], hshorter⟩ =>
      rw [operators.eq_def registry, operators.eq_def other]
      rfl
  | ⟨value, names, token :: rest, hshorter⟩ =>
      refine operators_cons_alike (fun hopens strength => operation_alike hopens strength rest h)
        fun next hnext => ?_
      have hlength := hnext.length_le
      exact operators_alike floor next (h.suffix (hnext.trans (List.suffix_cons _ _)))
termination_by 3 * left.rest.length

theorem arguments_alike {before : Token} (hopens : before.OpensOperand) (tokens : List Token)
    (h : Alike registry other leaves (before :: tokens)) :
    arguments registry tokens = (arguments other tokens).map (onTrees leaves) := by
  rw [arguments.eq_def registry, arguments.eq_def other, operation_alike hopens 0 tokens h]
  cases hfirst : operation other 0 tokens with
  | error failure => rfl
  | ok first =>
      simp only [Except.map, follow]
      cases hmore : Token.afterKind? .separator first.rest with
      | none => rfl
      | some more =>
          rcases more with ⟨more, hshorter⟩
          rcases Token.afterKind?_eq_some hmore with ⟨⟨_, text⟩, hrest, rfl⟩
          have hlength := first.shorter
          have hsuffix := operation_suffix hfirst
          rw [hrest] at hsuffix
          simp only [arguments_alike (.separator text) more
            (h.suffix (hsuffix.trans (List.suffix_cons _ _)))]
          cases arguments other more with
          | error failure => rfl
          | ok others => simp [Except.map, follow, leavesNames_append]
termination_by 3 * tokens.length + 2

end

end Reading

end Formula
