import Formula.Proofs.Reading.Alike
import Formula.Proofs.Token.Layout

/-!
# What a reading depends on

Reading asks a registry for the arities of the names that a text calls and for the
constants of its other names. Whatever else the registry holds, and whatever its
functions compute, the text is read or refused the same way.
-/

namespace Formula

namespace Token

/-- The names that a token list calls: the ones before an opening parenthesis, and the minus
mark where an operand starts. -/
inductive Calls (tokens : List Token) : String → Prop
  | name {name : String} (call : [⟨.name, name⟩, openingMark] <:+: tokens) : Calls tokens name
  | negation {before after : List Token} (split : tokens = before ++ minus :: after)
      (start : ∀ token ∈ before.getLast?, token.OpensOperand) : Calls tokens minusMark

theorem calls_minusMark {token : Token} {tokens : List Token} (hopens : token.OpensOperand)
    (h : [token, minus] <:+: openingMark :: tokens) : Calls tokens minusMark := by
  rcases List.infix_cons_iff.1 h with hstart | ⟨before, after, hsplit⟩
  · rcases (List.cons_prefix_cons.1 hstart).2 with ⟨after, hafter⟩
    exact @Calls.negation _ [] after hafter.symm (by simp)
  · refine @Calls.negation _ (before ++ [token]) after (by simp [← hsplit]) ?_
    simpa using hopens

/-- The mark of factorial is neither a name nor the minus mark. -/
theorem not_calls_factorialMark (text : String) : ¬ Calls (ofText text) factorialMark := by
  intro h
  generalize hmark : factorialMark = mark at h
  cases h with
  | name call =>
      have hlex := isLexeme_of_mem_ofText (call.mem List.mem_cons_self)
      rw [← hmark] at hlex
      exact absurd hlex.1 (by decide)
  | negation => exact absurd hmark (by decide)

end Token

/-- Two registries agree on all that a reader asks about a token list. -/
structure Registry.AgreeOn (registry other : Registry) (tokens : List Token) : Prop where
  called : ∀ name, Token.Calls tokens name → registry.arity? name = other.arity? name
  uncalled : ∀ name after, ⟨.name, name⟩ :: after <:+ tokens →
    after.head? ≠ some Token.openingMark → registry.constant? name = other.constant? name

namespace Reading

open Expression (substitute_var_self)

variable {registry other : Registry}

theorem onTree_var {bound : Nat} (reading : Reading Expression bound) :
    reading.onTree .var = reading := by
  rcases reading with ⟨value, names, rest, shorter⟩
  have hnames : leavesNames .var names = names := by
    simp [leavesNames, Expression.variableNames_var]
  simp only [onTree, follow, substitute_var_self, hnames]

theorem alike_of_agreeOn {tokens : List Token} (hlex : ∀ token ∈ tokens, token.IsLexeme)
    (h : registry.AgreeOn other tokens) :
    Alike registry other .var (Token.openingMark :: tokens) where
  called name opening after hafter := by
    have hsuffix := (List.suffix_cons_iff.1 hafter).resolve_left (by simp [Token.openingMark])
    obtain rfl : opening = "(" := hlex ⟨.opening, opening⟩ (hsuffix.mem (by simp))
    have hcall : [⟨.name, name⟩, Token.openingMark] <:+:
        ⟨.name, name⟩ :: Token.openingMark :: after :=
      (List.prefix_append [⟨.name, name⟩, Token.openingMark] after).isInfix
    exact h.called name (.name (hcall.trans hsuffix.isInfix))
  uncalled name after hafter huncalled := by
    have hsuffix := (List.suffix_cons_iff.1 hafter).resolve_left (by simp [Token.openingMark])
    have hhead : after.head? ≠ some Token.openingMark := fun hhead =>
      huncalled Token.openingMark hhead rfl
    rw [substitute_var_self, leaf, leaf, h.uncalled name after hsuffix hhead]
  negated token hopens hminus := h.called _ (Token.calls_minusMark hopens hminus)

theorem operation_congr {tokens : List Token} (hlex : ∀ token ∈ tokens, token.IsLexeme)
    (h : registry.AgreeOn other tokens) (floor : Nat) :
    operation registry floor tokens = operation other floor tokens := by
  rw [operation_alike (.opening _) floor tokens (alike_of_agreeOn hlex h)]
  cases operation other floor tokens with
  | error failure => rfl
  | ok reading => rw [Except.map, onTree_var]

end Reading

namespace Parsed

variable {registry other : Registry} {text : String}

theorem ofText_congr (h : registry.AgreeOn other (Token.ofText text)) :
    ofText registry text = ofText other text := by
  have hread := Reading.operation_congr (fun _ => Token.isLexeme_of_mem_ofText) h 0
  simp only [ofText, ofTokens, hread]

theorem ofText_addFunction {name : String} {function : Function}
    (h : Token.Calls (Token.ofText text) name →
      registry.arity? name = some function.arity) :
    ofText (registry.addFunction name function) text = ofText registry text := by
  refine ofText_congr ⟨fun callee hcalled => ?_, fun _ _ _ _ => rfl⟩
  rw [Registry.arity?_addFunction]
  split
  · rename_i hname
    subst hname
    exact (h hcalled).symm
  · rfl

/-- Two registries read a text alike, or refuse it for the same cause, when they agree on the
arities of the names that it calls and on the constants of its other names. So a function can
be replaced by another of its arity, and a factorial or a function that the text does not call
can be added. -/
theorem ofText_depends_on_names (text : String) :
    (∀ registry other, Registry.AgreeOn registry other (Token.ofText text) →
        ofText registry text = ofText other text) ∧
      ∀ registry,
        (∀ name old new, registry.function? name = some old → new.arity = old.arity →
          ofText (registry.addFunction name new) text = ofText registry text) ∧
        (∀ function, ofText (registry.addFunction Token.factorialMark function) text =
          ofText registry text) ∧
        ∀ name function, ¬ Token.Calls (Token.ofText text) name →
          ofText (registry.addFunction name function) text = ofText registry text := by
  refine ⟨fun registry other => ofText_congr, fun registry => ⟨?_, ?_, ?_⟩⟩
  · intro name old new hold harity
    refine ofText_addFunction fun _ => ?_
    rw [Registry.arity?_of_function? hold, harity]
  · intro function
    exact ofText_addFunction fun hcalls => (Token.not_calls_factorialMark text hcalls).elim
  · intro name function huncalled
    exact ofText_addFunction fun hcalls => (huncalled hcalls).elim

/-- The text calls `f` alone, whose constant is not asked for; its minus is no negation. -/
theorem ofText_depends_on_names_difference :
    ofText (Registry.empty.addFunction "f" (.unary fun a => a)) "f(x) - y" =
      ofText (((Registry.empty.addFunction "f" (.unary fun a => a + 1)).addFunction "-"
        (.binary fun a b => a - b)).addConstant "f" 1) "f(x) - y" := by
  have htokens : Token.ofText "f(x) - y" =
      [⟨.name, "f"⟩, Token.openingMark, ⟨.name, "x"⟩, Token.closingMark, Token.minus,
        ⟨.name, "y"⟩] := by decide +kernel
  refine (ofText_depends_on_names _).1 _ _ ⟨?_, ?_⟩
  · intro name hcalls
    rw [htokens] at hcalls
    cases hcalls with
    | name call =>
        have hname : name = "f" := by
          simpa [List.infix_cons_iff, Token.openingMark, Token.closingMark, Token.minus]
            using call
        subst hname
        rfl
    | @negation before after split start =>
        have hsplit : before = [⟨.name, "f"⟩, ⟨.opening, "("⟩, ⟨.name, "x"⟩, ⟨.closing, ")"⟩] ∧
            after = [⟨.name, "y"⟩] := by
          simpa [List.cons_eq_append_iff, Token.openingMark, Token.closingMark, Token.minus]
            using split
        rw [hsplit.1] at start
        exact absurd rfl (start ⟨.closing, ")"⟩ rfl).kind_ne_closing
  · intro name after hafter hhead
    have hname : name ≠ "f" := by
      rintro rfl
      rw [htokens] at hafter
      simp [List.suffix_cons_iff, Token.openingMark, Token.closingMark, Token.minus] at hafter
      simp [hafter, Token.openingMark] at hhead
    rw [Registry.constant?_addConstant, if_neg hname]
    rfl

end Parsed

end Formula
