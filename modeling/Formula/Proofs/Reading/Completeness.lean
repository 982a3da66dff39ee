import Formula.Proofs.Expression.Nodes
import Formula.Proofs.Reading.Inversion

/-!
# The grammar is read

A phrase of the grammar is read off the head of any token list that goes on with
something the phrase does not take, and it is read as its tree.

A layer is not read in one call: `operation` reads its first factor and `operators`
goes on with the joints. So the statement for layers is that reading the phrase
leaves the loop where it would be if the phrase were its left operand.
-/

namespace Formula

namespace Reading

open Grammar

variable {registry : Registry}

/-- The result is a reading with the given parts. -/
def Gives {α : Type} {bound : Nat} (result : Except Failure (Reading α bound)) (value : α)
    (names : List String) (rest : List Token) : Prop :=
  ∃ shorter, result = .ok ⟨value, names, rest, shorter⟩

/-- What may follow a primary: nothing that turns it into a call or a factorial. -/
def EndsPrimary (rest : List Token) : Prop :=
  ∀ token ∈ rest.head?, token.kind ≠ .opening ∧ token ≠ Token.factorial

/-- What may follow a phrase of a layer: no operator but those that bind no stronger. -/
def EndsLayer (strength : Nat) (rest : List Token) : Prop :=
  ∀ token ∈ rest.head?, token.kind ≠ .opening ∧
    (token.kind = .operator →
      ∃ operator : Operator, token.text = operator.symbol ∧ operator.layer ≤ strength)

theorem EndsLayer.endsPrimary {strength : Nat} {rest : List Token}
    (h : EndsLayer strength rest) : EndsPrimary rest := by
  intro token htoken
  rcases h token htoken with ⟨hopening, hoperator⟩
  refine ⟨hopening, ?_⟩
  intro heq
  subst heq
  rcases hoperator rfl with ⟨operator, hsymbol, -⟩
  exact operator.symbol_ne_factorialMark hsymbol.symm

theorem EndsLayer.mono {strength limit : Nat} {rest : List Token}
    (h : EndsLayer strength rest) (hle : strength ≤ limit) : EndsLayer limit rest := by
  intro token htoken
  rcases h token htoken with ⟨hopening, hoperator⟩
  refine ⟨hopening, fun hkind => ?_⟩
  rcases hoperator hkind with ⟨operator, hsymbol, hprecedence⟩
  exact ⟨operator, hsymbol, Nat.le_trans hprecedence hle⟩

theorem endsLayer_ofOperator {operator : Operator} {after : List Token} :
    EndsLayer operator.layer (Token.ofOperator operator :: after) := by
  intro token htoken
  have heq : Token.ofOperator operator = token := by simpa using htoken
  subst heq
  exact ⟨by simp, fun _ => ⟨operator, Token.text_ofOperator operator, Nat.le_refl _⟩⟩

theorem endsLayer_of_kind {strength : Nat} {token : Token} {after : List Token}
    (hopening : token.kind ≠ .opening) (hoperator : token.kind ≠ .operator) :
    EndsLayer strength (token :: after) := by
  intro other hother
  have heq : token = other := by simpa using hother
  subst heq
  exact ⟨hopening, fun hkind => (hoperator hkind).elim⟩

theorem endsLayer_nil {strength : Nat} : EndsLayer strength [] := by
  simp [EndsLayer]

/-- What may follow the arguments of a call: nothing that goes on with them. -/
def EndsArguments (rest : List Token) : Prop :=
  ∀ token ∈ rest.head?,
    token.kind ≠ .opening ∧ token.kind ≠ .operator ∧ token.kind ≠ .separator

theorem EndsArguments.endsLayer {strength : Nat} {rest : List Token} (h : EndsArguments rest) :
    EndsLayer strength rest :=
  fun token htoken => ⟨(h token htoken).1, fun hkind => ((h token htoken).2.1 hkind).elim⟩

theorem endsArguments_nil : EndsArguments [] := by
  simp [EndsArguments]

theorem endsArguments_closing {after : List Token} :
    EndsArguments (Token.closingMark :: after) := by
  simp [EndsArguments, Token.closingMark]

/-! ## Equations of the reader -/

variable {bound : Nat}

theorem withFactorial_of_mark {tree : Expression} {names : List String} {rest : List Token}
    (shorter : (Token.factorial :: rest).length < bound) :
    ∃ h, withFactorial ⟨tree, names, Token.factorial :: rest, shorter⟩ =
      ⟨.call Token.factorialMark [tree], names, rest, h⟩ :=
  ⟨Nat.lt_of_succ_lt shorter, rfl⟩

theorem withFactorial_of_unmarked {reading : Reading Expression bound}
    (h : Token.factorial ∉ reading.rest.head?) : withFactorial reading = reading := by
  have hnone : Token.after? (fun token => token.isOperator Token.factorialMark)
      reading.rest = none := by
    refine Token.after?_eq_none_iff.2 fun token htoken => ?_
    rw [Bool.eq_false_iff, ne_eq, Token.isOperator_iff]
    intro heq
    subst heq
    exact h htoken
  unfold withFactorial
  split
  · rfl
  · rename_i hsome
    cases hnone.symm.trans hsome

theorem operand_number {text : String} {value : Float} (rest : List Token)
    (h : Decimal.read? text.toList = some value) :
    operand registry (⟨.number, text⟩ :: rest) =
      .ok (withFactorial ⟨.number value, [], rest, Nat.lt_succ_self _⟩) := by
  rw [operand]
  simp [h]

theorem operand_leaf {name : String} {rest : List Token}
    (h : ∀ token ∈ rest.head?, token.kind ≠ .opening) :
    operand registry (⟨.name, name⟩ :: rest) =
      .ok (withFactorial ⟨leaf registry name, leafNames registry name, rest,
        Nat.lt_succ_self _⟩) := by
  have hnone := Token.afterKind?_eq_none_iff.2 h
  rw [operand]
  simp only
  split
  · rfl
  · rename_i hsome
    cases hnone.symm.trans hsome

theorem head_of_operation_ok {floor : Nat} {tokens : List Token}
    {reading : Reading Expression tokens.length}
    (h : operation registry floor tokens = .ok reading) :
    tokens ≠ [] ∧ Token.afterKind? .closing tokens = none := by
  rcases operation_eq_ok h with ⟨left, hleft, -⟩
  exact (operandForm_of_ok hleft).head

theorem closed_of_closing {α : Type} {value : α} {names : List String} {rest : List Token}
    {shorter : (Token.closingMark :: rest).length < bound} :
    Gives (closed ⟨value, names, Token.closingMark :: rest, shorter⟩) value names rest :=
  ⟨Nat.lt_of_succ_lt shorter, rfl⟩

theorem operand_opening {inner : List Token} {reading : Reading Expression inner.length}
    (h : operation registry 0 inner = .ok reading) :
    operand registry (Token.openingMark :: inner) =
      (reading.widen (Nat.le_succ inner.length)).closed := by
  have hhead := (head_of_operation_ok h).2
  rw [operand]
  simp only [Token.openingMark, hhead, Option.isSome_none, Bool.false_eq_true, if_false, h]

theorem operand_group {inner rest : List Token} {tree : Expression} {names : List String}
    (h : Gives (operation registry 0 inner) tree names (Token.closingMark :: rest)) :
    Gives (operand registry (Token.openingMark :: inner)) tree names rest := by
  rcases h with ⟨hshorter, hread⟩
  rw [operand_opening hread]
  exact closed_of_closing

theorem operand_negative {tokens rest : List Token} {tree : Expression}
    {names : List String} (negates : Negates registry)
    (h : Gives (operand registry tokens) tree names rest) :
    Gives (operand registry (Token.minus :: tokens)) (.call Token.minusMark [tree]) names
      rest := by
  rcases h with ⟨hshorter, hread⟩
  have hcount : countFailure? registry Token.minusMark 1 = none :=
    countFailure?_eq_none_iff.2 negates
  rw [operand]
  simp only [Token.minus, hcount, hread]
  exact ⟨Nat.lt_succ_of_lt hshorter, rfl⟩

theorem operand_name_opening {name : String} {arity : Nat} {inner : List Token}
    {args : Reading (List Expression) inner.length}
    (known : registry.arity? name = some arity) (h : arguments registry inner = .ok args) :
    ∃ hlimit, operand registry (⟨.name, name⟩ :: Token.openingMark :: inner) =
      called registry name (args.widen hlimit) := by
  rcases arguments_eq_ok h with ⟨first, hfirst, -⟩
  have hhead := (head_of_operation_ok hfirst).2
  rw [operand]
  simp only [Token.openingMark, Token.afterKind?_cons_self, Registry.containsFunction_eq_isSome,
    known, hhead, h, Option.isSome_some, Bool.not_true, Option.isSome_none, Bool.false_eq_true,
    if_false, exists_prop, and_true]
  exact Nat.le_succ_of_le (Nat.le_succ _)

theorem operand_call {name : String} {inner after : List Token} {args : List Expression}
    {names : List String} (arity : registry.arity? name = some args.length)
    (h : Gives (arguments registry inner) args names (Token.closingMark :: after)) :
    ∃ shorter, operand registry (⟨.name, name⟩ :: Token.openingMark :: inner) =
      .ok (withFactorial ⟨.call name args, names, after, shorter⟩) := by
  rcases h with ⟨hshorter, hread⟩
  have hcount : countFailure? registry name args.length = none :=
    countFailure?_eq_none_iff.2 (.inr arity)
  rcases operand_name_opening arity hread with ⟨hlimit, hoperand⟩
  refine ⟨Nat.lt_of_lt_of_le (Nat.lt_of_succ_lt hshorter) hlimit, ?_⟩
  rw [hoperand]
  simp [called, closed, widen, Token.closingMark, hcount]

theorem operators_of_endsLayer {floor : Nat} {reading : Reading Expression bound}
    (h : EndsLayer floor reading.rest) : operators registry floor reading = .ok reading := by
  rcases reading with ⟨value, names, tokens, hshorter⟩
  match tokens with
  | [] => rw [operators]
  | ⟨kind, text⟩ :: rest =>
      rw [operators]
      by_cases hkind : kind = .operator
      · subst hkind
        rcases (h ⟨.operator, text⟩ rfl).2 rfl with ⟨operator, rfl, hle⟩
        simp [operator.symbol_ne_factorialMark, operator.precedence_eq_layer, hle]
      · simp [hkind]

theorem operators_ofOperator {floor : Nat} {operator : Operator} {value tree : Expression}
    {names names' : List String} {after rest : List Token}
    (shorter : (Token.ofOperator operator :: after).length < bound)
    (hfloor : floor < operator.layer)
    (hread : Gives (operation registry operator.layer after) tree names' rest) :
    ∃ h, operators registry floor ⟨value, names, Token.ofOperator operator :: after, shorter⟩ =
      operators registry floor ⟨.binary operator value tree, names' ++ names, rest, h⟩ := by
  rcases hread with ⟨hrest, hread⟩
  have hafter : after.isEmpty = false := by simpa using (head_of_operation_ok hread).1
  refine ⟨Nat.lt_trans hrest (Nat.lt_of_succ_lt shorter), ?_⟩
  rw [operators]
  simp [operator.symbol_ne_factorialMark, operator.precedence_eq_layer, Nat.not_le.2 hfloor,
    hafter, hread]

theorem arguments_last {tokens rest : List Token} {tree : Expression} {names : List String}
    (h : Gives (operation registry 0 tokens) tree names rest) (ends : EndsArguments rest) :
    Gives (arguments registry tokens) [tree] names rest := by
  rcases h with ⟨hshorter, hread⟩
  have hnone : Token.afterKind? .separator rest = none :=
    Token.afterKind?_eq_none_iff.2 fun token htoken => (ends token htoken).2.2
  rw [arguments]
  simp only [hread]
  split
  · exact ⟨hshorter, rfl⟩
  · rename_i hsome
    cases hnone.symm.trans hsome

theorem arguments_more {tokens more rest : List Token} {tree : Expression}
    {trees : List Expression} {names names' : List String}
    (h : Gives (operation registry 0 tokens) tree names (Token.separatorMark :: more))
    (hmore : Gives (arguments registry more) trees names' rest) :
    Gives (arguments registry tokens) (tree :: trees) (names' ++ names) rest := by
  rcases h with ⟨hshorter, hread⟩
  rcases hmore with ⟨hrest, hothers⟩
  rw [arguments]
  simp only [hread, Token.separatorMark, Token.afterKind?_cons_self, hothers]
  exact ⟨Nat.lt_trans hrest (Nat.lt_of_succ_lt hshorter), rfl⟩

/-! ## Phrases -/

theorem leaf_of_constant {name : String} {value : Float}
    (known : registry.constant? name = some value) :
    leaf registry name = .number value ∧ leafNames registry name = [] := by
  simp [leaf, leafNames, known]

theorem leaf_of_unknown {name : String} (unknown : registry.constant? name = none) :
    leaf registry name = .var name ∧ leafNames registry name = [name] := by
  simp [leaf, leafNames, unknown]

theorem operation_of_operators {tokens rest : List Token} {tree : Expression}
    {names : List String} (ends : EndsLayer 0 rest)
    (h : ∃ shorter, operation registry 0 tokens =
      operators registry 0 ⟨tree, names, rest, shorter⟩) :
    Gives (operation registry 0 tokens) tree names rest := by
  rcases h with ⟨hshorter, hread⟩
  exact ⟨hshorter, hread.trans (operators_of_endsLayer ends)⟩

-- By induction on the derivation; a phrase that closes another is read up to its end.
mutual

theorem primary_read {taken : List Token} {tree : Expression}
    (h : Primary registry taken tree) (rest : List Token)
    (ends : ∀ token ∈ rest.head?, token.kind ≠ .opening) :
    ∃ shorter, operand registry (taken ++ rest) =
      .ok (withFactorial ⟨tree, tree.variableNames.reverse, rest, shorter⟩) := by
  match taken, tree, h with
  | _, _, .number numeral point =>
      exact ⟨_, operand_number rest (Token.read?_of_isNumeral numeral
        fun h => point (String.toList_inj.1 h))⟩
  | _, _, @Primary.constant _ name _ known =>
      have hread := @operand_leaf registry name rest ends
      rw [(leaf_of_constant known).1, (leaf_of_constant known).2] at hread
      exact ⟨_, hread⟩
  | _, _, @Primary.var _ name unknown =>
      have hread := @operand_leaf registry name rest ends
      rw [(leaf_of_unknown unknown).1, (leaf_of_unknown unknown).2] at hread
      exact ⟨_, hread⟩
  | _, _, .call arity inner =>
      rw [List.cons_append, List.cons_append, List.append_assoc, Expression.variableNames_call]
      exact operand_call arity (arguments_read inner _ endsArguments_closing)

theorem factor_read {taken : List Token} {tree : Expression}
    (h : Factor registry taken tree) (rest : List Token) (ends : EndsPrimary rest) :
    Gives (operand registry (taken ++ rest)) tree tree.variableNames.reverse rest := by
  match taken, tree, h with
  | _, _, .plain inner =>
      obtain ⟨hshorter, hread⟩ := primary_read inner rest fun token htoken =>
        (ends token htoken).1
      refine ⟨hshorter, hread.trans (congrArg _ (withFactorial_of_unmarked ?_))⟩
      exact fun hmem => (ends _ hmem).2 rfl
  | _, _, .factorial inner =>
      obtain ⟨hshorter, hread⟩ := primary_read inner (Token.factorial :: rest) (by
        simp [Token.factorial])
      rcases withFactorial_of_mark hshorter with ⟨hmarked, hmark⟩
      rw [List.append_assoc, Expression.variableNames_call, Expression.argumentNames_cons,
        Expression.argumentNames_nil, List.append_nil]
      exact ⟨hmarked, hread.trans (congrArg _ hmark)⟩
  | _, _, .group inner =>
      rw [List.cons_append, List.append_assoc]
      exact operand_group (operation_of_operators endsArguments_closing.endsLayer
        (layer_read inner Nat.one_pos _ endsArguments_closing.endsLayer))
  | _, _, .negative negates inner =>
      rw [List.cons_append, Expression.variableNames_call, Expression.argumentNames_cons,
        Expression.argumentNames_nil, List.append_nil]
      exact operand_negative negates (factor_read inner rest ends)

theorem layer_read {strength : Nat} {taken : List Token} {tree : Expression}
    (h : Layer registry strength taken tree) {floor : Nat} (hfloor : floor < strength)
    (rest : List Token) (ends : EndsLayer strength rest) :
    ∃ shorter, operation registry floor (taken ++ rest) =
      operators registry floor ⟨tree, tree.variableNames.reverse, rest, shorter⟩ := by
  match strength, taken, tree, h with
  | _, _, _, .factor inner =>
      rcases factor_read inner rest ends.endsPrimary with ⟨hshorter, hread⟩
      refine ⟨hshorter, ?_⟩
      rw [operation]
      simp only [hread]
  | _, _, _, .single inner =>
      exact layer_read inner (Nat.lt_succ_of_lt hfloor) rest (ends.mono (Nat.le_succ _))
  | _, _, _, @Layer.join _ operator _ rights _ _ first second =>
      obtain ⟨hrights, hsecond⟩ := layer_read second (Nat.lt_succ_self _) rest
        (ends.mono (Nat.le_succ _))
      have hright := hsecond.trans (operators_of_endsLayer ends)
      obtain ⟨hlefts, hfirst⟩ := layer_read first hfloor
        (Token.ofOperator operator :: (rights ++ rest)) endsLayer_ofOperator
      rcases operators_ofOperator hlefts hfloor ⟨hrights, hright⟩ with ⟨hshorter, hnext⟩
      rw [List.append_assoc, Expression.variableNames_binary, List.reverse_append]
      exact ⟨hshorter, hfirst.trans hnext⟩

theorem arguments_read {taken : List Token} {trees : List Expression}
    (h : Arguments registry taken trees) (rest : List Token) (ends : EndsArguments rest) :
    Gives (arguments registry (taken ++ rest)) trees
      (Expression.argumentNames trees).reverse rest := by
  match taken, trees, h with
  | _, _, .last only =>
      rw [Expression.argumentNames_cons, Expression.argumentNames_nil, List.append_nil]
      exact arguments_last (operation_of_operators ends.endsLayer
        (layer_read only Nat.one_pos _ ends.endsLayer)) ends
  | _, _, @Arguments.more _ _ others _ _ first following =>
      have hends {strength : Nat} : EndsLayer strength (Token.separatorMark :: (others ++ rest)) :=
        endsLayer_of_kind (by decide) (by decide)
      rw [List.append_assoc, Expression.argumentNames_cons, List.reverse_append]
      exact arguments_more (operation_of_operators hends
        (layer_read first Nat.one_pos _ hends)) (arguments_read following rest ends)

end

theorem layer_gives {taken : List Token} {tree : Expression} (h : Layer registry 1 taken tree)
    (rest : List Token) (ends : EndsLayer 0 rest) :
    Gives (operation registry 0 (taken ++ rest)) tree tree.variableNames.reverse rest :=
  operation_of_operators ends (layer_read h Nat.one_pos rest (ends.mono (Nat.zero_le 1)))

end Reading

end Formula
