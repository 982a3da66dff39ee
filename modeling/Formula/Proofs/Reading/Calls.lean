import Formula.Proofs.Reading.Refusals
import Formula.Proofs.Reading.Whole
import Formula.Proofs.Token.Joined

/-!
# Calls

A name before an opening parenthesis is a call. The reader looks for the function first,
then for arguments, then for the closing parenthesis, and counts the arguments last.
-/

namespace Formula

namespace Reading

variable {registry : Registry} {name : String} {arity : Nat}

theorem operand_unknown (unknown : registry.arity? name = none) (inner : List Token) :
    operand registry (⟨.name, name⟩ :: Token.openingMark :: inner) =
      .error (.unknownFunction name) := by
  rw [operand]
  simp [Token.openingMark, Registry.containsFunction_eq_isSome, unknown]

theorem operand_noArguments (known : registry.arity? name = some arity) (after : List Token) :
    operand registry (⟨.name, name⟩ :: Token.openingMark :: Token.closingMark :: after) =
      .error (.noArguments name) := by
  rw [operand]
  simp [Token.openingMark, Token.closingMark, Registry.containsFunction_eq_isSome, known]

theorem operand_unclosed {inner : List Token} {args : List Expression} {names : List String}
    (known : registry.arity? name = some arity)
    (h : Gives (arguments registry inner) args names []) :
    operand registry (⟨.name, name⟩ :: Token.openingMark :: inner) = .error .unclosedGroup := by
  rcases h with ⟨hshorter, hread⟩
  rcases operand_name_opening known hread with ⟨hlimit, hoperand⟩
  rw [hoperand]
  rfl

theorem operand_argumentCount {inner after : List Token} {args : List Expression}
    {names : List String} (known : registry.arity? name = some arity)
    (hcount : args.length ≠ arity)
    (h : Gives (arguments registry inner) args names (Token.closingMark :: after)) :
    operand registry (⟨.name, name⟩ :: Token.openingMark :: inner) =
      .error (.argumentCount name arity args.length) := by
  have hfailure : countFailure? registry name args.length =
      some (.argumentCount name arity args.length) := by
    simp [countFailure?, known, hcount.symm]
  rcases h with ⟨hshorter, hread⟩
  rcases operand_name_opening known hread with ⟨hlimit, hoperand⟩
  rw [hoperand]
  simp [called, closed, widen, Token.closingMark, hfailure]

end Reading

namespace Parsed

open Reading Grammar

variable {registry : Registry}

theorem ofTokens_of_operand_error {tokens : List Token} {failure : Failure}
    (h : operand registry tokens = .error failure) :
    ofTokens registry tokens = .error failure := by
  rw [ofTokens, operation, h]

/-- Texts that are read alone are the arguments of a call when separators stand between them. -/
theorem arguments_of_texts {texts : List String} {parts : List Parsed}
    (h : List.Forall₂ (fun text part => ofText registry text = .ok part) texts parts)
    (hne : texts ≠ []) :
    Arguments registry (Token.ofText (",".intercalate texts)) (parts.map Parsed.root) := by
  induction h with
  | nil => exact (hne rfl).elim
  | @cons text part texts parts hfirst hrest ih =>
      have hlayer := layer_of_ofText hfirst
      by_cases hlast : texts = []
      · subst hlast
        cases hrest
        rw [String.intercalate_singleton]
        exact .last hlayer
      · rw [String.intercalate_cons_of_ne_nil hlast, Token.ofText_around_separator]
        exact .more hlayer (ih hlast)

section

variable {name : String} {arity : Nat} {texts : List String} {parts : List Parsed}

theorem ofText_parenthesized (hname : Token.IsName name.toList) (inner : String) :
    Token.ofText (name ++ "(" ++ inner ++ ")") =
      ⟨.name, name⟩ :: Token.openingMark :: (Token.ofText inner ++ [Token.closingMark]) := by
  rw [Token.ofText_closing, Token.ofText_name_opening hname]
  rfl

theorem ofText_call_of_arity (hname : Token.IsName name.toList)
    (hparts : List.Forall₂ (fun text part => ofText registry text = .ok part) texts parts)
    (known : registry.arity? name = some texts.length) (hne : texts ≠ []) :
    ∃ parsed, ofText registry (name ++ "(" ++ ",".intercalate texts ++ ")") = .ok parsed ∧
      parsed.root = .call name (parts.map Parsed.root) := by
  have harity : registry.arity? name = some (parts.map Parsed.root).length := by
    rw [known, List.length_map, hparts.length_eq]
  have hcall := Primary.call harity (arguments_of_texts hparts hne)
  rw [ofText, ofText_parenthesized hname]
  exact ⟨_, ofTokens_of_layer (Layer.weaken (.factor (.plain hcall)) (by decide)), rfl⟩

theorem refusedAs_argumentCount (hname : Token.IsName name.toList)
    (hparts : List.Forall₂ (fun text part => ofText registry text = .ok part) texts parts)
    (known : registry.arity? name = some arity) (hcount : texts.length ≠ arity) :
    RefusedAs registry (name ++ "(" ++ ",".intercalate texts ++ ")") .argumentCount := by
  rw [RefusedAs, ofText, ofText_parenthesized hname]
  by_cases hne : texts = []
  · subst hne
    rw [String.intercalate_nil, Token.ofText_empty]
    exact ⟨_, ofTokens_of_operand_error (operand_noArguments known []), rfl⟩
  · have hread := arguments_read (arguments_of_texts hparts hne) [Token.closingMark]
      endsArguments_closing
    have hlength : (parts.map Parsed.root).length ≠ arity := by
      rwa [List.length_map, ← hparts.length_eq]
    exact ⟨_, ofTokens_of_operand_error (operand_argumentCount known hlength hread), rfl⟩

theorem refusedAs_unclosed_call (hname : Token.IsName name.toList)
    (hparts : List.Forall₂ (fun text part => ofText registry text = .ok part) texts parts)
    (known : registry.arity? name = some arity) (hne : texts ≠ []) :
    RefusedAs registry (name ++ "(" ++ ",".intercalate texts) .unmatchedGroup := by
  have hread := arguments_read (arguments_of_texts hparts hne) [] endsArguments_nil
  rw [List.append_nil] at hread
  rw [RefusedAs, ofText, Token.ofText_name_opening hname]
  exact ⟨_, ofTokens_of_operand_error (operand_unclosed known hread), rfl⟩

theorem refusedAs_unknown_call (hname : Token.IsName name.toList)
    (unknown : registry.arity? name = none) (rest : String) :
    RefusedAs registry (name ++ "(" ++ rest) .unknownFunction := by
  rw [RefusedAs, ofText, Token.ofText_name_opening hname]
  exact ⟨_, ofTokens_of_operand_error (operand_unknown unknown _), rfl⟩

end

/-- A call with texts that are expressions is read exactly when their number is the arity of
the function. Another number, none included, is refused for the count; a call without its
closing parenthesis for the parenthesis; and a name that is no function is refused before an
opening parenthesis, whatever follows. -/
theorem ofText_call {name : String} {texts : List String} {parts : List Parsed}
    (hname : Token.IsName name.toList)
    (hparts : List.Forall₂ (fun text part => ofText registry text = .ok part) texts parts) :
    (∀ function, registry.function? name = some function →
        (texts.length = function.arity →
          ∃ parsed, ofText registry (name ++ "(" ++ ",".intercalate texts ++ ")") = .ok parsed ∧
            parsed.root = .call name (parts.map Parsed.root)) ∧
        (texts.length ≠ function.arity →
          RefusedAs registry (name ++ "(" ++ ",".intercalate texts ++ ")") .argumentCount) ∧
        (texts ≠ [] →
          RefusedAs registry (name ++ "(" ++ ",".intercalate texts) .unmatchedGroup)) ∧
      (registry.function? name = none →
        ∀ rest, RefusedAs registry (name ++ "(" ++ rest) .unknownFunction) := by
  refine ⟨?_, ?_⟩
  · intro function hfunction
    have known := Registry.arity?_of_function? hfunction
    refine ⟨?_, ?_, ?_⟩
    · intro hcount
      have hne : texts ≠ [] := by
        rintro rfl
        exact absurd hcount.symm (Nat.ne_of_gt function.one_le_arity)
      exact ofText_call_of_arity hname hparts (hcount ▸ known) hne
    · exact refusedAs_argumentCount hname hparts known
    · exact refusedAs_unclosed_call hname hparts known
  · intro hfunction
    exact refusedAs_unknown_call hname (by rw [Registry.arity?, hfunction, Option.map_none])

/-- A registry with one function, of three arguments. -/
def averaging : Registry :=
  Registry.empty.addFunction "m" (.ternary fun a b c => (a + b + c) / 3)

theorem ofText_call_averaging :
    (∃ parsed, ofText averaging "m(x,y,z)" = .ok parsed ∧
        parsed.root = .call "m" [.var "x", .var "y", .var "z"]) ∧
      RefusedAs averaging "m(x,y,z" .unmatchedGroup ∧
      RefusedAs averaging "m(x)" .argumentCount ∧
      RefusedAs averaging "n(x))" .unknownFunction := by
  have hread (leaf : String) (hleaf : Token.IsName leaf.toList) :
      ofText averaging leaf = .ok ⟨.var leaf, .ofList [(leaf, 0)]⟩ := by
    rw [ofText, Token.ofText_of_isName hleaf]
    exact ofTokens_of_layer (.var rfl (by decide))
  have hx := hread "x" ⟨by decide, by simp⟩
  have hy := hread "y" ⟨by decide, by simp⟩
  have hz := hread "z" ⟨by decide, by simp⟩
  have hknown : Token.IsName "m".toList := ⟨by decide, by simp⟩
  have hunknown : Token.IsName "n".toList := ⟨by decide, by simp⟩
  have hthree := (ofText_call hknown (.cons hx (.cons hy (.cons hz .nil)))).1 _ rfl
  have hone := (ofText_call hknown (.cons hx .nil)).1 _ rfl
  exact ⟨hthree.1 rfl, hthree.2.2 (by decide), hone.2.1 (by decide),
    (ofText_call hunknown .nil).2 rfl "x))"⟩

end Parsed

end Formula
