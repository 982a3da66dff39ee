import Formula.Proofs.Reading.Grammar

/-!
# Writing expressions

A writing is an expression whose numbers are still numerals. It is written down as
tokens with single spaces between them, and with parentheses only where the strength
of its parts asks for them.
-/

namespace Formula

/-- An expression as it is written: numerals, names, operations and calls. -/
inductive Writing where
  | numeral (text : String)
  | identifier (name : String)
  | binary (operator : Operator) (left right : Writing)
  | negative (inner : Writing)
  | call (name : String) (args : List Writing)
  | factorial (inner : Writing)

namespace Writing

mutual

/-- The expression that is written. -/
def tree : Writing → Expression
  | .numeral text => .number (Token.numeralValue text.toList)
  | .identifier name => .var name
  | .binary operator left right => .binary operator left.tree right.tree
  | .negative inner => .call "-" [inner.tree]
  | .call name args => .call name (trees args)
  | .factorial inner => .call "!" [inner.tree]

def trees : List Writing → List Expression
  | [] => []
  | arg :: args => arg.tree :: trees args

end

/-- A numeral, a name or a call: what may carry a factorial mark. -/
def IsPrimary : Writing → Prop
  | .numeral _ | .identifier _ | .call _ _ => True
  | .binary _ _ _ | .negative _ | .factorial _ => False

/-- What can be written under a registry. -/
inductive Valid (registry : Registry) : Writing → Prop
  | numeral {text : String} (language : Token.IsNumeral text.toList)
      (digit : ∃ c ∈ text.toList, c.isDigit = true) : Valid registry (.numeral text)
  | identifier {name : String} (language : Token.IsName name.toList)
      (unknown : registry.constant? name = none) : Valid registry (.identifier name)
  | binary {operator : Operator} {left right : Writing} (first : Valid registry left)
      (second : Valid registry right) : Valid registry (.binary operator left right)
  | negative {inner : Writing} (negates : Grammar.Negates registry)
      (valid : Valid registry inner) : Valid registry (.negative inner)
  | call {name : String} {args : List Writing} (language : Token.IsName name.toList)
      (arity : registry.arity? name = some args.length)
      (valid : ∀ arg ∈ args, Valid registry arg) : Valid registry (.call name args)
  | factorial {inner : Writing} (primary : inner.IsPrimary) (valid : Valid registry inner) :
      Valid registry (.factorial inner)

def isOperation : Writing → Bool
  | .binary _ _ _ => true
  | .numeral _ | .identifier _ | .negative _ | .call _ _ | .factorial _ => false

/-- The layer of the grammar that a writing belongs to: the fourth for all but operations. -/
def strength : Writing → Nat
  | .binary operator _ _ => operator.layer
  | .numeral _ | .identifier _ | .negative _ | .call _ _ | .factorial _ => 4

/-- Tokens in parentheses, if these are needed. -/
def grouped (needed : Bool) (tokens : List Token) : List Token :=
  if needed then Token.openingMark :: (tokens ++ [Token.closingMark]) else tokens

mutual

/-- The tokens of a writing. In parentheses stand a weaker left operand, a right operand that
is not stronger, and an operation under prefix negation. -/
def tokens : Writing → List Token
  | .numeral text => [⟨.number, text⟩]
  | .identifier name => [⟨.name, name⟩]
  | .binary operator left right =>
      grouped (left.strength < operator.layer) left.tokens ++
        Token.ofOperator operator ::
          grouped (right.strength ≤ operator.layer) right.tokens
  | .negative inner => Token.minus :: grouped inner.isOperation inner.tokens
  | .call name args =>
      ⟨.name, name⟩ :: Token.openingMark :: (argumentTokens args ++ [Token.closingMark])
  | .factorial inner => inner.tokens ++ [Token.factorial]

def argumentTokens : List Writing → List Token
  | [] => []
  | [arg] => arg.tokens
  | arg :: next :: args => arg.tokens ++ Token.separatorMark :: argumentTokens (next :: args)

end

/-- A writing as text: its tokens with single spaces between them. -/
def text (writing : Writing) : String :=
  " ".intercalate (writing.tokens.map Token.text)

end Writing

end Formula
