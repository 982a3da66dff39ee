import Formula.Proofs.Expression.Nodes
import Formula.Proofs.Reading.Grammar

/-!
# The shape of derived trees

What a node of a tree that the grammar derives can be. The two reserved names are no
identifiers, so no call that is written out can have them: a factorial stands on one
operand that can carry the mark, and a negation on one operand.
-/

namespace Formula

open Expression

namespace Grammar

/-- A number, a variable, or a call written out with an identifier. -/
def IsMarkable (tree : Expression) : Prop :=
  (∃ value, tree = .number value) ∨ (∃ name, tree = .var name) ∨
    ∃ name args, tree = .call name args ∧ Token.IsName name.toList

/-- What a node of a derived tree can be. -/
inductive NodeForm (registry : Registry) : Expression → Prop
  | number (value : Float) : NodeForm registry (.number value)
  | var {name : String} (unknown : registry.constant? name = none) :
      NodeForm registry (.var name)
  | binary (operator : Operator) (left right : Expression) :
      NodeForm registry (.binary operator left right)
  | call {name : String} {args : List Expression} (identifier : Token.IsName name.toList)
      (arity : registry.arity? name = some args.length) : NodeForm registry (.call name args)
  | factorial {arg : Expression} (markable : IsMarkable arg) :
      NodeForm registry (.call Token.factorialMark [arg])
  | negative {arg : Expression} (negates : Negates registry) :
      NodeForm registry (.call Token.minusMark [arg])

variable {registry : Registry}

theorem isMarkable_of_primary {tokens : List Token} {tree : Expression}
    (h : Primary registry tokens tree) (hlex : ∀ token ∈ tokens, token.IsLexeme) :
    IsMarkable tree := by
  cases h with
  | number => exact .inl ⟨_, rfl⟩
  | constant => exact .inl ⟨_, rfl⟩
  | var => exact .inr (.inl ⟨_, rfl⟩)
  | @call name => exact .inr (.inr ⟨_, _, rfl, hlex ⟨.name, name⟩ (by simp)⟩)

-- By induction on the derivation: each rule makes one new node at most.
mutual

theorem primary_nodes {tokens : List Token} {tree : Expression}
    (h : Primary registry tokens tree) (hlex : ∀ token ∈ tokens, token.IsLexeme) :
    ∀ node, Node node tree → NodeForm registry node := by
  match tokens, tree, h with
  | _, _, .number _ _ => exact forall_node_number (.number _)
  | _, _, .constant _ => exact forall_node_number (.number _)
  | _, _, .var unknown => exact forall_node_var (.var unknown)
  | _, _, @Primary.call _ name _ _ arity inner =>
      have hargs := arguments_nodes inner fun token htoken => hlex token (by simp [htoken])
      exact forall_node_call (.call (hlex ⟨.name, name⟩ (by simp)) arity) hargs

theorem factor_nodes {tokens : List Token} {tree : Expression}
    (h : Factor registry tokens tree) (hlex : ∀ token ∈ tokens, token.IsLexeme) :
    ∀ node, Node node tree → NodeForm registry node := by
  match tokens, tree, h with
  | _, _, .plain inner => exact primary_nodes inner hlex
  | _, _, .factorial inner =>
      have hinnerLex := fun token htoken => hlex token (List.mem_append_left _ htoken)
      have hinner := primary_nodes inner hinnerLex
      have hmarkable := isMarkable_of_primary inner hinnerLex
      exact forall_node_call (.factorial hmarkable) (List.forall_mem_singleton.2 hinner)
  | _, _, .group inner =>
      exact layer_nodes inner fun token htoken => hlex token (by simp [htoken])
  | _, _, .negative negates inner =>
      have hinner := factor_nodes inner fun token htoken => hlex token (by simp [htoken])
      exact forall_node_call (.negative negates) (List.forall_mem_singleton.2 hinner)

theorem layer_nodes {strength : Nat} {tokens : List Token} {tree : Expression}
    (h : Layer registry strength tokens tree) (hlex : ∀ token ∈ tokens, token.IsLexeme) :
    ∀ node, Node node tree → NodeForm registry node := by
  match strength, tokens, tree, h with
  | _, _, _, .factor inner => exact factor_nodes inner hlex
  | _, _, _, .single inner => exact layer_nodes inner hlex
  | _, _, _, .join first second =>
      have hfirst := layer_nodes first fun token htoken => hlex token (by simp [htoken])
      have hsecond := layer_nodes second fun token htoken => hlex token (by simp [htoken])
      exact forall_node_binary (.binary _ _ _) hfirst hsecond

theorem arguments_nodes {tokens : List Token} {trees : List Expression}
    (h : Arguments registry tokens trees) (hlex : ∀ token ∈ tokens, token.IsLexeme) :
    ∀ tree ∈ trees, ∀ node, Node node tree → NodeForm registry node := by
  match tokens, trees, h with
  | _, _, .last only => exact List.forall_mem_singleton.2 (layer_nodes only hlex)
  | _, _, .more first following =>
      have hfirst := layer_nodes first fun token htoken => hlex token (by simp [htoken])
      have hrest := arguments_nodes following fun token htoken => hlex token (by simp [htoken])
      exact List.forall_mem_cons.2 ⟨hfirst, hrest⟩

end

/-! ## Reserved names -/

theorem not_isName_factorialMark : ¬ Token.IsName Token.factorialMark.toList :=
  fun h => absurd h.1 (by decide)

theorem not_isName_minusMark : ¬ Token.IsName Token.minusMark.toList :=
  fun h => absurd h.1 (by decide)

theorem NodeForm.factorial_args {args : List Expression}
    (h : NodeForm registry (.call Token.factorialMark args)) :
    ∃ arg, args = [arg] ∧ IsMarkable arg := by
  generalize hnode : Expression.call Token.factorialMark args = node at h
  cases h with
  | number | var | binary => cases hnode
  | call identifier =>
      rw [← (Expression.call.inj hnode).1] at identifier
      exact (not_isName_factorialMark identifier).elim
  | @factorial arg markable => exact ⟨arg, (Expression.call.inj hnode).2, markable⟩
  | negative => exact absurd (Expression.call.inj hnode).1 (by decide)

theorem NodeForm.negative_args {args : List Expression}
    (h : NodeForm registry (.call Token.minusMark args)) :
    Negates registry ∧ ∃ arg, args = [arg] := by
  generalize hnode : Expression.call Token.minusMark args = node at h
  cases h with
  | number | var | binary => cases hnode
  | call identifier =>
      rw [← (Expression.call.inj hnode).1] at identifier
      exact (not_isName_minusMark identifier).elim
  | factorial => exact absurd (Expression.call.inj hnode).1 (by decide)
  | @negative arg negates => exact ⟨negates, arg, (Expression.call.inj hnode).2⟩

end Grammar

end Formula
