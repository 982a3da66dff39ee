import Formula.Proofs.Reading.Refusals
import Formula.Proofs.Reading.Whole
import Formula.Proofs.Token.Joined

/-!
# What surrounds an expression

An expression at the head of a longer token list is read as it is read alone. So the
first token that cannot go on with it decides why the whole is refused, however many
operators are still waiting for their right operand.
-/

namespace Formula

namespace Reading

open Grammar

variable {registry : Registry}

/-- A tail that refuses what stands before it. Where operators are looked for the reader may
stop at it or fail, but it fails where all operators are taken up. -/
structure Refuses (registry : Registry) (rest : List Token) (failure : Failure) : Prop where
  nonempty : rest ≠ []
  ends : EndsPrimary rest
  stops : ∀ {bound : Nat} (floor : Nat) (left : Reading Expression bound), left.rest = rest →
    operators registry floor left = .ok left ∨ operators registry floor left = .error failure
  fails : ∀ {bound : Nat} (left : Reading Expression bound), left.rest = rest →
    operators registry 0 left = .error failure

theorem operators_dangling {bound floor : Nat} {operator : Operator}
    {left : Reading Expression bound} (hrest : left.rest = [Token.ofOperator operator]) :
    operators registry floor left =
      if operator.layer ≤ floor then .ok left
      else .error (.danglingOperator operator.symbol) := by
  rcases left with ⟨value, names, rest, shorter⟩
  subst hrest
  rw [operators]
  simp [operator.symbol_ne_factorialMark, operator.precedence_eq_layer]

theorem refuses_dangling (operator : Operator) :
    Refuses registry [Token.ofOperator operator] (.danglingOperator operator.symbol) where
  nonempty := List.cons_ne_nil _ _
  ends := endsLayer_ofOperator.endsPrimary
  stops floor left hrest := by
    rw [operators_dangling hrest]
    split
    · exact .inl rfl
    · exact .inr rfl
  fails left hrest := by
    have hstrong := operator.one_le_layer
    rw [operators_dangling hrest, if_neg (by omega)]

theorem operators_unknown {bound floor : Nat} {text : String} {after : List Token}
    {left : Reading Expression bound} (hmark : text ≠ Token.factorialMark)
    (hunknown : Operator.ofSymbol? text = none) (hrest : left.rest = ⟨.operator, text⟩ :: after) :
    operators registry floor left = .error (.unknownOperator text) := by
  rcases left with ⟨value, names, rest, shorter⟩
  subst hrest
  rw [operators]
  simp [hmark, hunknown]

theorem refuses_unknown {text : String} {after : List Token}
    (hmark : text ≠ Token.factorialMark) (hunknown : Operator.ofSymbol? text = none) :
    Refuses registry (⟨.operator, text⟩ :: after) (.unknownOperator text) where
  nonempty := List.cons_ne_nil _ _
  ends := by simpa [EndsPrimary, Token.factorial, Token.factorialMark] using hmark
  stops _ _ hrest := .inr (operators_unknown hmark hunknown hrest)
  fails _ hrest := operators_unknown hmark hunknown hrest

theorem operators_ofOperator_error {bound floor : Nat} {operator : Operator}
    {value : Expression} {names : List String} {after : List Token} {failure : Failure}
    (shorter : (Token.ofOperator operator :: after).length < bound)
    (hfloor : floor < operator.layer) (hafter : after ≠ [])
    (hread : operation registry operator.layer after = .error failure) :
    operators registry floor ⟨value, names, Token.ofOperator operator :: after, shorter⟩ =
      .error failure := by
  rw [operators]
  simp [operator.symbol_ne_factorialMark, operator.precedence_eq_layer, Nat.not_le.2 hfloor,
    hafter, hread]

-- By induction on the derivation. A left operand is followed by its operator and read as
-- before; only a right operand meets the tail, and may stop at it or fail.
/-- A phrase before the tail is read up to it, or a right operand in it has met the tail. -/
theorem layer_read_refuses {strength : Nat} {taken : List Token} {tree : Expression}
    (h : Layer registry strength taken tree) {floor : Nat} (hfloor : floor < strength)
    {rest : List Token} {failure : Failure} (hrefuses : Refuses registry rest failure) :
    (∃ shorter, operation registry floor (taken ++ rest) =
        operators registry floor ⟨tree, tree.variableNames.reverse, rest, shorter⟩) ∨
      operation registry floor (taken ++ rest) = .error failure := by
  match strength, taken, tree, h with
  | _, _, _, .factor inner =>
      rcases factor_read inner rest hrefuses.ends with ⟨hshorter, hread⟩
      refine .inl ⟨hshorter, ?_⟩
      rw [operation]
      simp only [hread]
  | _, _, _, .single inner =>
      exact layer_read_refuses inner (Nat.lt_succ_of_lt hfloor) hrefuses
  | _, _, _, @Layer.join _ operator lefts rights left right first second =>
      obtain ⟨hlefts, hfirst⟩ := layer_read first hfloor
        (Token.ofOperator operator :: (rights ++ rest)) endsLayer_ofOperator
      have hafter : rights ++ rest ≠ [] := by simp [hrefuses.nonempty]
      have hright : Gives (operation registry operator.layer (rights ++ rest)) right
            right.variableNames.reverse rest ∨
          operation registry operator.layer (rights ++ rest) = .error failure := by
        rcases layer_read_refuses second (Nat.lt_succ_self _) hrefuses with
          ⟨hrights, hsecond⟩ | herror
        · rcases hrefuses.stops operator.layer
            ⟨right, right.variableNames.reverse, rest, hrights⟩ rfl with hstops | hfails
          · exact .inl ⟨hrights, hsecond.trans hstops⟩
          · exact .inr (hsecond.trans hfails)
        · exact .inr herror
      rw [List.append_assoc, List.cons_append, hfirst]
      rcases hright with hgives | herror
      · rw [Expression.variableNames_binary, List.reverse_append]
        exact .inl (operators_ofOperator hlefts hfloor hgives)
      · exact .inr (operators_ofOperator_error hlefts hfloor hafter herror)

theorem operation_refuses {taken rest : List Token} {tree : Expression} {failure : Failure}
    (h : Layer registry 1 taken tree) (hrefuses : Refuses registry rest failure) :
    operation registry 0 (taken ++ rest) = .error failure := by
  rcases layer_read_refuses h Nat.one_pos hrefuses with ⟨hshorter, hread⟩ | herror
  · exact hread.trans (hrefuses.fails _ rfl)
  · exact herror

end Reading

namespace Parsed

open Reading Grammar

variable {registry : Registry}

theorem ofTokens_unclosed {tokens : List Token} {tree : Expression}
    (h : Layer registry 1 tokens tree) :
    ofTokens registry (Token.openingMark :: tokens) = .error .unclosedGroup := by
  have hread := layer_gives h [] endsLayer_nil
  rw [List.append_nil] at hread
  rcases hread with ⟨hshorter, hread⟩
  rw [ofTokens, operation, operand_opening hread]
  rfl

theorem ofTokens_trailing {taken after : List Token} {token : Token} {tree : Expression}
    (h : Layer registry 1 taken tree) (hopening : token.kind ≠ .opening)
    (hoperator : token.kind ≠ .operator) :
    ofTokens registry (taken ++ token :: after) =
      .error (if token.kind = .closing then .surplusClosing else .trailingToken token.text) := by
  rcases layer_gives h (token :: after) (endsLayer_of_kind hopening hoperator) with
    ⟨hshorter, hread⟩
  simp only [ofTokens, hread]
  split <;> rfl

/-! ## Texts -/

section

variable {text rest : String} {parsed : Parsed}

theorem ofText_unclosed (h : ofText registry text = .ok parsed) :
    ofText registry ("(" ++ text) = .error .unclosedGroup := by
  rw [ofText, Token.ofText_opening]
  exact ofTokens_unclosed (layer_of_ofText h)

theorem ofText_trailing {token : Token} {after : List Token}
    (h : ofText registry text = .ok parsed) (hrest : Token.ofText rest = token :: after)
    (hopening : token.kind ≠ .opening) (hoperator : token.kind ≠ .operator) :
    ofText registry (text ++ " " ++ rest) =
      .error (if token.kind = .closing then .surplusClosing else .trailingToken token.text) := by
  rw [ofText, Token.ofText_around_blank, hrest]
  exact ofTokens_trailing (layer_of_ofText h) hopening hoperator

theorem ofText_refuses {failure : Failure} (h : ofText registry text = .ok parsed)
    (hrefuses : Refuses registry (Token.ofText rest) failure) :
    ofText registry (text ++ " " ++ rest) = .error failure := by
  rw [ofText, Token.ofText_around_blank, ofTokens, operation_refuses (layer_of_ofText h) hrefuses]

end

/-- An expression is refused after an opening parenthesis, before a final operator, and before
a blank and a text whose first token is a closing parenthesis, a separator, a numeral, a name
or an operator run without a meaning. The class of the failure depends neither on the
expression nor on what comes after that token. -/
theorem ofText_surrounded {text : String} {parsed : Parsed}
    (h : ofText registry text = .ok parsed) :
    RefusedAs registry ("(" ++ text) .unmatchedGroup ∧
      (∀ operator : Operator,
        RefusedAs registry (text ++ " " ++ operator.symbol) .malformed) ∧
      ∀ rest token after, Token.ofText rest = token :: after →
        (token.kind = .closing →
          RefusedAs registry (text ++ " " ++ rest) .unmatchedGroup) ∧
        (token.kind = .separator ∨ token.kind = .number ∨ token.kind = .name →
          RefusedAs registry (text ++ " " ++ rest) .malformed) ∧
        (token.kind = .operator → token.text ∉ ["+", "-", "*", "/", "%", "^", "!"] →
          RefusedAs registry (text ++ " " ++ rest) .unknownOperator) := by
  refine ⟨⟨_, ofText_unclosed h, rfl⟩, ?_, ?_⟩
  · intro operator
    have hsymbol : Token.ofText operator.symbol = [Token.ofOperator operator] := by
      rw [← Token.text_ofOperator]
      exact Token.ofText_of_isLexeme (Token.isLexeme_ofOperator operator)
    exact ⟨_, ofText_refuses h (hsymbol ▸ refuses_dangling operator), rfl⟩
  · intro rest token after hrest
    refine ⟨?_, ?_, ?_⟩
    · intro hclosing
      have hread := ofText_trailing h hrest (by simp [hclosing]) (by simp [hclosing])
      rw [if_pos hclosing] at hread
      exact ⟨_, hread, rfl⟩
    · intro hkind
      have hother : token.kind ≠ .opening ∧ token.kind ≠ .operator ∧ token.kind ≠ .closing := by
        rcases hkind with hkind | hkind | hkind <;> simp [hkind]
      have hread := ofText_trailing h hrest hother.1 hother.2.1
      rw [if_neg hother.2.2] at hread
      exact ⟨_, hread, rfl⟩
    · intro hkind htext
      obtain ⟨kind, symbol⟩ := token
      obtain rfl : kind = .operator := hkind
      simp only [List.mem_cons, List.not_mem_nil, or_false, not_or] at htext
      have hunknown : Operator.ofSymbol? symbol = none := by
        simp [Operator.ofSymbol?, htext]
      have hmark : symbol ≠ Token.factorialMark := htext.2.2.2.2.2.2
      exact ⟨_, ofText_refuses h (hrest ▸ refuses_unknown hmark hunknown), rfl⟩

/-- A power and a negation wait where the surplus tokens are met. -/
theorem ofText_surrounded_power :
    RefusedAs .empty "(x ^ -y" .unmatchedGroup ∧ RefusedAs .empty "x ^ -y +" .malformed ∧
      RefusedAs .empty "x ^ -y ) + 1" .unmatchedGroup ∧
      RefusedAs .empty "x ^ -y , z" .malformed ∧
      RefusedAs .empty "x ^ -y ** z" .unknownOperator := by
  have hlayer : Layer .empty 1 (Token.ofText "x ^ -y")
      (.binary .power (.var "x") (.call "-" [.var "y"])) := by
    have htokens : Token.ofText "x ^ -y" =
        [⟨.name, "x"⟩] ++ Token.ofOperator .power :: Token.minus :: [⟨.name, "y"⟩] := by
      decide +kernel
    have hfirst : Layer .empty Operator.power.layer [⟨.name, "x"⟩] (.var "x") :=
      .var rfl (by decide)
    have hsecond : Factor .empty (Token.minus :: [⟨.name, "y"⟩]) (.call "-" [.var "y"]) :=
      .negative (.inl rfl) (.plain (.var rfl))
    rw [htokens]
    exact Layer.weaken (.join hfirst (.factor hsecond)) (by decide)
  rcases ofText_surrounded (ofTokens_of_layer hlayer) with ⟨hopening, hoperator, hrest⟩
  have hclosing : Token.ofText ") + 1" =
      [Token.closingMark, Token.ofOperator .add, ⟨.number, "1"⟩] := by decide +kernel
  have hseparator : Token.ofText ", z" = [Token.separatorMark, ⟨.name, "z"⟩] := by
    decide +kernel
  have hunknown : Token.ofText "** z" = [⟨.operator, "**"⟩, ⟨.name, "z"⟩] := by decide +kernel
  exact ⟨hopening, hoperator .add, (hrest _ _ _ hclosing).1 rfl,
    (hrest _ _ _ hseparator).2.1 (.inl rfl), (hrest _ _ _ hunknown).2.2 rfl (by decide)⟩

end Parsed

end Formula
