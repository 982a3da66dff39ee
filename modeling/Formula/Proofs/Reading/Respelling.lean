import Formula.Builtin
import Formula.Proofs.Reading.Surroundings
import Formula.Proofs.Token.Boundary

/-!
# Numerals in another spelling

The reader sees of a numeral its value only, so a text may spell a numeral in another way
with the same value. A leading zero before the point can be left out wherever the point is
not taken by an operator run, and no text with a point in a run is read.
-/

namespace Formula

namespace Token

/-! ## What the reader sees -/

/-- What the reader sees of a token: the value of a numeral, and all of any other token. -/
def sense (token : Token) : Float ⊕ Token :=
  if token.kind = .number ∧ token.text ≠ "." then .inl (numeralValue token.text.toList)
  else .inr token

theorem sense_number {text : String} (hpoint : text ≠ ".") :
    sense ⟨.number, text⟩ = .inl (numeralValue text.toList) :=
  if_pos ⟨rfl, hpoint⟩

theorem sense_of_ne {token : Token} (h : token.kind ≠ .number) : sense token = .inr token :=
  if_neg fun hnumber => h hnumber.1

theorem eq_of_sense_eq {token other : Token} (h : token.kind ≠ .number)
    (hsense : sense other = sense token) : other = token := by
  rw [sense_of_ne h, sense] at hsense
  split at hsense
  · cases hsense
  · exact Sum.inr.inj hsense

theorem numeral_of_sense_eq {text : String} {other : Token} (hpoint : text ≠ ".")
    (hsense : sense other = sense ⟨.number, text⟩) :
    ∃ spelling, other = ⟨.number, spelling⟩ ∧ spelling ≠ "." ∧
      numeralValue spelling.toList = numeralValue text.toList := by
  obtain ⟨kind, spelling⟩ := other
  rw [sense_number hpoint, sense] at hsense
  split at hsense
  · rename_i hnumber
    obtain ⟨rfl, hspelling⟩ := hnumber
    exact ⟨spelling, rfl, hspelling, Sum.inl.inj hsense⟩
  · cases hsense

variable {token : Token} {others firsts rest : List Token}

theorem senses_cons (h : token.kind ≠ .number)
    (hsense : others.map sense = (token :: rest).map sense) :
    ∃ tail, others = token :: tail ∧ tail.map sense = rest.map sense := by
  rw [List.map_cons] at hsense
  obtain ⟨other, tail, rfl, hother, htail⟩ := List.map_eq_cons_iff.1 hsense
  obtain rfl := eq_of_sense_eq h hother
  exact ⟨tail, rfl, htail⟩

theorem senses_single (h : token.kind ≠ .number) (hsense : others.map sense = [token].map sense) :
    others = [token] := by
  obtain ⟨tail, rfl, htail⟩ := senses_cons h hsense
  obtain rfl := List.map_eq_nil_iff.1 htail
  rfl

theorem senses_around (h : token.kind ≠ .number)
    (hsense : others.map sense = (firsts ++ token :: rest).map sense) :
    ∃ head tail, others = head ++ token :: tail ∧ head.map sense = firsts.map sense ∧
      tail.map sense = rest.map sense := by
  rw [List.map_append] at hsense
  obtain ⟨head, back, rfl, hhead, hback⟩ := List.map_eq_append_iff.1 hsense
  obtain ⟨tail, rfl, htail⟩ := senses_cons h hback
  exact ⟨head, tail, rfl, hhead, htail⟩

theorem senses_last (h : token.kind ≠ .number)
    (hsense : others.map sense = (firsts ++ [token]).map sense) :
    ∃ head, others = head ++ [token] ∧ head.map sense = firsts.map sense := by
  obtain ⟨head, tail, rfl, hhead, htail⟩ := senses_around h hsense
  obtain rfl := List.map_eq_nil_iff.1 htail
  exact ⟨head, rfl, hhead⟩

end Token

namespace Grammar

open Token

variable {registry : Registry}

/-! ## Phrases in another spelling -/

-- By induction on the derivation: the tokens between which a rule joins phrases are no
-- numerals, so they stand in the other spelling as they are.
mutual

theorem primary_respelled {tokens others : List Token} {tree : Expression}
    (h : Primary registry tokens tree) (hsense : others.map sense = tokens.map sense)
    (hlex : ∀ token ∈ others, token.IsLexeme) : Primary registry others tree := by
  match tokens, tree, h with
  | _, _, .number numeral point =>
      obtain ⟨other, hothers, hother⟩ := List.map_eq_singleton_iff.1 hsense
      obtain ⟨spelling, rfl, hspelling, hvalue⟩ := numeral_of_sense_eq point hother
      have hnumeral : IsLexeme ⟨.number, spelling⟩ := hlex _ (by simp [hothers])
      rw [hothers, ← hvalue]
      exact .number hnumeral hspelling
  | _, _, .constant known =>
      obtain rfl := senses_single (by simp) hsense
      exact .constant known
  | _, _, .var unknown =>
      obtain rfl := senses_single (by simp) hsense
      exact .var unknown
  | _, _, .call arity inner =>
      obtain ⟨group, rfl, hgroup⟩ := senses_cons (by simp) hsense
      obtain ⟨closed, rfl, hclosed⟩ := senses_cons (by simp [openingMark]) hgroup
      obtain ⟨args, rfl, hargs⟩ := senses_last (by simp [closingMark]) hclosed
      exact .call arity (arguments_respelled inner hargs fun token h => hlex token (by simp [h]))

theorem factor_respelled {tokens others : List Token} {tree : Expression}
    (h : Factor registry tokens tree) (hsense : others.map sense = tokens.map sense)
    (hlex : ∀ token ∈ others, token.IsLexeme) : Factor registry others tree := by
  match tokens, tree, h with
  | _, _, .plain inner => exact .plain (primary_respelled inner hsense hlex)
  | _, _, .factorial inner =>
      obtain ⟨marked, rfl, hmarked⟩ := senses_last (by simp [factorial]) hsense
      exact .factorial
        (primary_respelled inner hmarked fun token h => hlex token (by simp [h]))
  | _, _, .group inner =>
      obtain ⟨closed, rfl, hclosed⟩ := senses_cons (by simp [openingMark]) hsense
      obtain ⟨sum, rfl, hsum⟩ := senses_last (by simp [closingMark]) hclosed
      exact .group (layer_respelled inner hsum fun token h => hlex token (by simp [h]))
  | _, _, .negative negates inner =>
      obtain ⟨negated, rfl, hnegated⟩ := senses_cons (by simp [minus]) hsense
      exact .negative negates
        (factor_respelled inner hnegated fun token h => hlex token (by simp [h]))

theorem layer_respelled {strength : Nat} {tokens others : List Token} {tree : Expression}
    (h : Layer registry strength tokens tree) (hsense : others.map sense = tokens.map sense)
    (hlex : ∀ token ∈ others, token.IsLexeme) : Layer registry strength others tree := by
  match strength, tokens, tree, h with
  | _, _, _, .factor inner => exact .factor (factor_respelled inner hsense hlex)
  | _, _, _, .single inner => exact .single (layer_respelled inner hsense hlex)
  | _, _, _, .join first second =>
      obtain ⟨lefts, rights, rfl, hlefts, hrights⟩ := senses_around (by simp) hsense
      exact .join (layer_respelled first hlefts fun token h => hlex token (by simp [h]))
        (layer_respelled second hrights fun token h => hlex token (by simp [h]))

theorem arguments_respelled {tokens others : List Token} {trees : List Expression}
    (h : Arguments registry tokens trees) (hsense : others.map sense = tokens.map sense)
    (hlex : ∀ token ∈ others, token.IsLexeme) : Arguments registry others trees := by
  match tokens, trees, h with
  | _, _, .last only => exact .last (layer_respelled only hsense hlex)
  | _, _, .more first following =>
      obtain ⟨head, tail, rfl, hhead, htail⟩ := senses_around (by simp [separatorMark]) hsense
      exact .more (layer_respelled first hhead fun token h => hlex token (by simp [h]))
        (arguments_respelled following htail fun token h => hlex token (by simp [h]))

end

theorem layer_numeral {strength : Nat} {text : String} (numeral : IsNumeral text.toList)
    (point : text ≠ ".") (hstrength : strength ≤ 4) :
    Layer registry strength [⟨.number, text⟩] (.number (numeralValue text.toList)) :=
  Layer.weaken (.factor (.plain (.number numeral point))) hstrength

theorem isNumeral_half : IsNumeral "0.5".toList := by
  have hchars : "0.5".toList = ['0'] ++ '.' :: ['5'] := by decide
  have hwhole : ∀ c ∈ ['0'], c.isDigit = true := List.forall_mem_singleton.2 (by decide)
  have hpart : ∀ c ∈ ['5'], c.isDigit = true := List.forall_mem_singleton.2 (by decide)
  rw [hchars]
  exact isNumeral_point hwhole hpart

/-! ## Operators of phrases -/

/-- The grammar has a rule for the token, if it is an operator. -/
def KnowsOperator (token : Token) : Prop :=
  token.kind = .operator → token = factorial ∨ ∃ operator, token = ofOperator operator

theorem knowsOperator_of_ne {token : Token} (h : token.kind ≠ .operator) : KnowsOperator token :=
  fun hkind => absurd hkind h

theorem KnowsOperator.point_not_mem {token : Token} (h : KnowsOperator token)
    (hkind : token.kind = .operator) : '.' ∉ token.text.toList := by
  obtain rfl | ⟨operator, rfl⟩ := h hkind
  · decide
  · cases operator <;> decide

theorem forall_mem_around {P : Token → Prop} {token : Token} {lefts rights : List Token}
    (htoken : P token) (hlefts : ∀ t ∈ lefts, P t) (hrights : ∀ t ∈ rights, P t) :
    ∀ t ∈ lefts ++ token :: rights, P t :=
  List.forall_mem_append.2 ⟨hlefts, List.forall_mem_cons.2 ⟨htoken, hrights⟩⟩

theorem knowsOperator_closed {tokens : List Token} (h : ∀ token ∈ tokens, KnowsOperator token) :
    ∀ token ∈ tokens ++ [closingMark], KnowsOperator token :=
  forall_mem_around (knowsOperator_of_ne (by simp [closingMark])) h (by simp)

mutual

theorem primary_operators {tokens : List Token} {tree : Expression}
    (h : Primary registry tokens tree) : ∀ token ∈ tokens, KnowsOperator token := by
  match tokens, tree, h with
  | _, _, .number _ _ => exact List.forall_mem_singleton.2 (knowsOperator_of_ne (by simp))
  | _, _, .constant _ => exact List.forall_mem_singleton.2 (knowsOperator_of_ne (by simp))
  | _, _, .var _ => exact List.forall_mem_singleton.2 (knowsOperator_of_ne (by simp))
  | _, _, .call _ inner =>
      have hclosed := knowsOperator_closed (arguments_operators inner)
      exact List.forall_mem_cons.2 ⟨knowsOperator_of_ne (by simp),
        List.forall_mem_cons.2 ⟨knowsOperator_of_ne (by simp [openingMark]), hclosed⟩⟩

theorem factor_operators {tokens : List Token} {tree : Expression}
    (h : Factor registry tokens tree) : ∀ token ∈ tokens, KnowsOperator token := by
  match tokens, tree, h with
  | _, _, .plain inner => exact primary_operators inner
  | _, _, .factorial inner =>
      exact forall_mem_around (fun _ => .inl rfl) (primary_operators inner) (by simp)
  | _, _, .group inner =>
      have hclosed := knowsOperator_closed (layer_operators inner)
      exact List.forall_mem_cons.2 ⟨knowsOperator_of_ne (by simp [openingMark]), hclosed⟩
  | _, _, .negative _ inner =>
      exact List.forall_mem_cons.2 ⟨fun _ => .inr ⟨.subtract, rfl⟩, factor_operators inner⟩

theorem layer_operators {strength : Nat} {tokens : List Token} {tree : Expression}
    (h : Layer registry strength tokens tree) : ∀ token ∈ tokens, KnowsOperator token := by
  match strength, tokens, tree, h with
  | _, _, _, .factor inner => exact factor_operators inner
  | _, _, _, .single inner => exact layer_operators inner
  | _, _, _, .join first second =>
      exact forall_mem_around (fun _ => .inr ⟨_, rfl⟩) (layer_operators first)
        (layer_operators second)

theorem arguments_operators {tokens : List Token} {trees : List Expression}
    (h : Arguments registry tokens trees) : ∀ token ∈ tokens, KnowsOperator token := by
  match tokens, trees, h with
  | _, _, .last only => exact layer_operators only
  | _, _, .more first following =>
      exact forall_mem_around (knowsOperator_of_ne (by simp [separatorMark]))
        (layer_operators first) (arguments_operators following)

end

end Grammar

namespace Parsed

open Grammar

variable {registry : Registry} {text other before digits after : String} {parsed : Parsed}

/-- A text with numerals of the same values, and else with the same tokens, is read alike. -/
theorem ofText_respelled
    (hsense : (Token.ofText other).map Token.sense = (Token.ofText text).map Token.sense)
    (h : ofText registry text = .ok parsed) : ofText registry other = .ok parsed := by
  have hlayer := layer_of_ofText h
  have hother := layer_respelled hlayer hsense fun _ => Token.isLexeme_of_mem_ofText
  exact (ofTokens_of_layer hother).trans ((ofTokens_of_layer hlayer).symm.trans h)

/-- A leading zero adds nothing to the number of a numeral. -/
theorem sense_leading_zero (hdigits : digits ≠ "") :
    Token.sense ⟨.number, "0." ++ digits⟩ = Token.sense ⟨.number, "." ++ digits⟩ := by
  have hzero : "0." ++ digits ≠ "." := by
    intro heq
    have hchars := congrArg String.toList heq
    simp at hchars
  have hpoint : "." ++ digits ≠ "." := by
    intro heq
    have hchars := congrArg String.toList heq
    exact hdigits (String.toList_eq_nil_iff.1 (by simpa using hchars))
  rw [Token.sense_number hzero, Token.sense_number hpoint, String.toList_append,
    String.toList_append]
  rfl

theorem tokens_around_numeral (point : String) (whole : List Char)
    (hpoint : point.toList = whole ++ ['.']) (hwhole : ∀ c ∈ whole, c.isDigit = true)
    (hdigits : ∀ c ∈ digits.toList, c.isDigit = true)
    (hbefore : ∀ c ∈ before.toList.getLast?, Token.Separates c)
    (hafter : ∀ c ∈ after.toList.head?, c.isDigit = false) :
    Token.ofText (before ++ point ++ digits ++ after) =
      Token.ofText before ++ ⟨.number, point ++ digits⟩ :: Token.ofText after := by
  have hnumeral : (point ++ digits).toList = whole ++ '.' :: digits.toList := by simp [hpoint]
  have hscan := Token.scan_around_numeral hbefore hwhole hdigits hafter
  rw [← hnumeral, String.ofList_toList, ← String.toList_append, ← String.toList_append,
    ← String.append_assoc] at hscan
  exact hscan

/-- A text with a point right after another operator character is not read. -/
theorem ofText_point_in_run {c : Char} (hlast : before.toList.getLast? = some c)
    (hc : Token.IsOperatorChar c) (hpoint : c ≠ '.') :
    ∃ failure, ofText registry (before ++ "." ++ after) = .error failure := by
  cases hread : ofText registry (before ++ "." ++ after) with
  | error failure => exact ⟨failure, rfl⟩
  | ok parsed =>
      obtain ⟨start, hstart⟩ := List.getLast?_eq_some_iff.1 hlast
      have htext : (before ++ "." ++ after).toList = start ++ c :: '.' :: after.toList := by
        simp [hstart]
      obtain ⟨token, hmem, hkind, hrun⟩ := Token.exists_operator_of_point hc hpoint htext
      have hknown := layer_operators (layer_of_ofText hread) token hmem
      exact absurd hrun (hknown.point_not_mem hkind)

/-- A numeral may be written without the zero before its point, at the start of a text and
after a blank, a parenthesis or a separator: such a text is read exactly when the one with the
zero is, and as the same. After an operator character the point joins the operator run, and
the text is refused. -/
theorem ofText_without_leading_zero (registry : Registry) {before digits after : String}
    (hdigits : digits ≠ "") (hall : ∀ c ∈ digits.toList, c.isDigit = true)
    (hbefore : ∀ c ∈ before.toList.getLast?, c.isAlphanum = false ∧ c ≠ '.')
    (hafter : ∀ c ∈ after.toList.head?, c.isDigit = false ∧ c ≠ '.') :
    ((∀ c ∈ before.toList.getLast?, ¬ Token.IsOperatorChar c) → ∀ parsed,
        ofText registry (before ++ "0." ++ digits ++ after) = .ok parsed ↔
          ofText registry (before ++ "." ++ digits ++ after) = .ok parsed) ∧
      ((∃ c ∈ before.toList.getLast?, Token.IsOperatorChar c) →
        ∃ failure, ofText registry (before ++ "." ++ digits ++ after) = .error failure) := by
  constructor
  · intro hrun parsed
    have hfresh : ∀ c ∈ before.toList.getLast?, Token.Separates c := fun c hc =>
      Token.separates_of_not_isOperatorChar (hbefore c hc).1 (hrun c hc)
    have hstop := fun c hc => (hafter c hc).1
    have hleading : ∀ c ∈ ['0'], c.isDigit = true := List.forall_mem_singleton.2 (by decide)
    have hzero := tokens_around_numeral "0." ['0'] rfl hleading hall hfresh hstop
    have hpoint := tokens_around_numeral "." [] rfl (List.forall_mem_nil _) hall hfresh hstop
    have hsense : (Token.ofText (before ++ "0." ++ digits ++ after)).map Token.sense =
        (Token.ofText (before ++ "." ++ digits ++ after)).map Token.sense := by
      rw [hzero, hpoint, List.map_append, List.map_append, List.map_cons, List.map_cons,
        sense_leading_zero hdigits]
    exact ⟨ofText_respelled hsense.symm, ofText_respelled hsense⟩
  · rintro ⟨c, hlast, hrun⟩
    rw [String.append_assoc]
    exact ofText_point_in_run hlast hrun (hbefore c hlast).2

theorem ofText_without_leading_zero_group :
    ∃ parsed, ofText .standard ("(" ++ "0." ++ "5" ++ ")") = .ok parsed ∧
      ofText .standard ("(" ++ "." ++ "5" ++ ")") = .ok parsed := by
  have htokens : Token.ofText ("(" ++ "0." ++ "5" ++ ")") =
      Token.openingMark :: ([⟨.number, "0.5"⟩] ++ [Token.closingMark]) := by decide +kernel
  have hlayer : Layer .standard 1 (Token.ofText ("(" ++ "0." ++ "5" ++ ")"))
      (.number (Token.numeralValue "0.5".toList)) := by
    rw [htokens]
    exact Layer.weaken (.factor (.group (layer_numeral isNumeral_half (by decide) (by decide))))
      (by decide)
  have hread := ofTokens_of_layer hlayer
  have hopening : ∀ c ∈ "(".toList.getLast?, c = '(' := fun _ hc => (Option.some.inj hc).symm
  have hclosing : ∀ c ∈ ")".toList.head?, c = ')' := fun _ hc => (Option.some.inj hc).symm
  have hbefore : ∀ c ∈ "(".toList.getLast?, c.isAlphanum = false ∧ c ≠ '.' := by
    intro c hc
    rw [hopening c hc]
    decide
  have hafter : ∀ c ∈ ")".toList.head?, c.isDigit = false ∧ c ≠ '.' := by
    intro c hc
    rw [hclosing c hc]
    decide
  have hfresh : ∀ c ∈ "(".toList.getLast?, ¬ Token.IsOperatorChar c := by
    intro c hc
    rw [hopening c hc]
    decide
  have hdigit : ∀ c ∈ "5".toList, c.isDigit = true := List.forall_mem_singleton.2 (by decide)
  have hsame := ofText_without_leading_zero .standard (by decide) hdigit hbefore hafter
  exact ⟨_, hread, (hsame.1 hfresh _).1 hread⟩

/-- After an operator the zero cannot be left out: the point is read with the operator. -/
theorem ofText_point_after_operator :
    (∀ c ∈ "1+".toList.getLast?, c.isAlphanum = false ∧ c ≠ '.') ∧
      (∃ parsed, ofText .standard ("1+" ++ "0." ++ "5" ++ "") = .ok parsed) ∧
      ofText .standard ("1+" ++ "." ++ "5" ++ "") = .error (.unknownOperator "+.") := by
  have hdigit : ∀ c ∈ "1".toList, c.isDigit = true := List.forall_mem_singleton.2 (by decide)
  have hone : Token.IsNumeral "1".toList := Token.isNumeral_digits (by decide) hdigit
  have htokens : Token.ofText ("1+" ++ "0." ++ "5" ++ "") =
      [⟨.number, "1"⟩] ++ Token.ofOperator .add :: [⟨.number, "0.5"⟩] := by decide +kernel
  have hrun : Token.ofText ("1+" ++ "." ++ "5" ++ "") =
      [⟨.number, "1"⟩] ++ ⟨.operator, "+."⟩ :: [⟨.number, "5"⟩] := by decide +kernel
  have hfirst : Layer .standard Operator.add.layer [⟨.number, "1"⟩]
      (.number (Token.numeralValue "1".toList)) := layer_numeral hone (by decide) (by decide)
  refine ⟨?_, ?_, ?_⟩
  · intro c hc
    obtain rfl : '+' = c := Option.some.inj hc
    decide
  · have hsum := Layer.join hfirst (layer_numeral isNumeral_half (by decide) (by decide))
    rw [ofText, htokens]
    exact ⟨_, ofTokens_of_layer hsum⟩
  · have hrefuses : Reading.Refuses .standard (⟨.operator, "+."⟩ :: [⟨.number, "5"⟩])
        (.unknownOperator "+.") := Reading.refuses_unknown (by decide) (by decide)
    rw [ofText, hrun, ofTokens, Reading.operation_refuses hfirst hrefuses]

end Parsed

end Formula
