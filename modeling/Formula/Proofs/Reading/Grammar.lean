import Formula.Operator
import Formula.Expression
import Formula.Registry
import Formula.Proofs.Token.Numeral

/-!
# The layered grammar

Which token lists write which expressions, in layers of rising strength. Layer 1 is
a sum, layer 2 a product, layer 3 a power, and layer 4 holds the factors that powers
join. A layer joins phrases of the next one, and joins them to the left.

The spellings of the operators and the layers they join are tables of this module; that
the reader has the same ones is `ofOperator_eq` and `precedence_eq_layer`.
-/

namespace Formula

namespace Operator

/-- The layer whose phrases an operator joins: sums, products or powers. -/
def layer : Operator → Nat
  | add | subtract => 1
  | multiply | divide | remainder => 2
  | power => 3

theorem precedence_eq_layer (operator : Operator) : operator.precedence = operator.layer := by
  cases operator <;> rfl

theorem one_le_layer (operator : Operator) : 1 ≤ operator.layer := by
  cases operator <;> decide

theorem layer_le_three (operator : Operator) : operator.layer ≤ 3 := by
  cases operator <;> decide

end Operator

namespace Token

/-! ## The tokens of fixed phrases -/

def openingMark : Token := ⟨.opening, "("⟩

def closingMark : Token := ⟨.closing, ")"⟩

def separatorMark : Token := ⟨.separator, ","⟩

/-- The six operators as the grammar spells them. -/
def ofOperator : Operator → Token
  | .add => ⟨.operator, "+"⟩
  | .subtract => ⟨.operator, "-"⟩
  | .multiply => ⟨.operator, "*"⟩
  | .divide => ⟨.operator, "/"⟩
  | .remainder => ⟨.operator, "%"⟩
  | .power => ⟨.operator, "^"⟩

def minus : Token := ⟨.operator, "-"⟩

def factorial : Token := ⟨.operator, "!"⟩

theorem ofOperator_eq (operator : Operator) :
    ofOperator operator = ⟨.operator, operator.symbol⟩ := by
  cases operator <;> rfl

@[simp] theorem kind_ofOperator (operator : Operator) :
    (ofOperator operator).kind = .operator := by
  rw [ofOperator_eq]

@[simp] theorem text_ofOperator (operator : Operator) :
    (ofOperator operator).text = operator.symbol := by
  rw [ofOperator_eq]

theorem isLexeme_ofOperator (operator : Operator) : (ofOperator operator).IsLexeme := by
  cases operator <;> exact ⟨by decide, by simp⟩

end Token

namespace Grammar

/-- Whether prefix negation calls nothing or a function of one argument. -/
def Negates (registry : Registry) : Prop :=
  registry.arity? "-" = none ∨ registry.arity? "-" = some 1

variable (registry : Registry)

mutual

/-- A number, a name or a call: what a factorial mark may follow. -/
inductive Primary : List Token → Expression → Prop
  | number {text : String} (numeral : Token.IsNumeral text.toList) (point : text ≠ ".") :
      Primary [⟨.number, text⟩] (.number (Token.numeralValue text.toList))
  | constant {name : String} {value : Float} (known : registry.constant? name = some value) :
      Primary [⟨.name, name⟩] (.number value)
  | var {name : String} (unknown : registry.constant? name = none) :
      Primary [⟨.name, name⟩] (.var name)
  | call {name : String} {tokens : List Token} {args : List Expression}
      (arity : registry.arity? name = some args.length) (inner : Arguments tokens args) :
      Primary (⟨.name, name⟩ :: Token.openingMark :: (tokens ++ [Token.closingMark]))
        (.call name args)

/-- A primary with or without a factorial mark, a group, or the negative of a factor. -/
inductive Factor : List Token → Expression → Prop
  | plain {tokens : List Token} {tree : Expression} (inner : Primary tokens tree) :
      Factor tokens tree
  | factorial {tokens : List Token} {tree : Expression} (inner : Primary tokens tree) :
      Factor (tokens ++ [Token.factorial]) (.call "!" [tree])
  | group {tokens : List Token} {tree : Expression} (inner : Layer 1 tokens tree) :
      Factor (Token.openingMark :: (tokens ++ [Token.closingMark])) tree
  | negative {tokens : List Token} {tree : Expression} (negates : Negates registry)
      (inner : Factor tokens tree) :
      Factor (Token.minus :: tokens) (.call "-" [tree])

/-- Phrases of the next layer, joined from the left by operators of this one. -/
inductive Layer : Nat → List Token → Expression → Prop
  | factor {tokens : List Token} {tree : Expression} (inner : Factor tokens tree) :
      Layer 4 tokens tree
  | single {strength : Nat} {tokens : List Token} {tree : Expression}
      (inner : Layer (strength + 1) tokens tree) : Layer strength tokens tree
  | join {operator : Operator} {lefts rights : List Token} {left right : Expression}
      (first : Layer operator.layer lefts left)
      (second : Layer (operator.layer + 1) rights right) :
      Layer operator.layer (lefts ++ Token.ofOperator operator :: rights)
        (.binary operator left right)

/-- One or more sums with separators between them. -/
inductive Arguments : List Token → List Expression → Prop
  | last {tokens : List Token} {tree : Expression} (only : Layer 1 tokens tree) :
      Arguments tokens [tree]
  | more {tokens others : List Token} {tree : Expression} {trees : List Expression}
      (first : Layer 1 tokens tree) (rest : Arguments others trees) :
      Arguments (tokens ++ Token.separatorMark :: others) (tree :: trees)

end

end Grammar

end Formula
