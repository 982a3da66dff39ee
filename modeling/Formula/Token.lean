import Formula.Text.Blank

/-!
# Tokens

A formula is read as a list of tokens: numerals, names, runs of operator
characters and the three marks `(`, `)` and `,`. A token keeps the characters it
was read from; only blanks are left out between two tokens.
-/

namespace Formula

inductive TokenKind where
  | number
  | name
  | operator
  | opening
  | closing
  | separator
  /-- A name known to be called; the scanner leaves that to the reader of calls. -/
  | function
  deriving DecidableEq, Repr

structure Token where
  kind : TokenKind
  text : String
  deriving DecidableEq, Repr

namespace Token

def factorialMark : String := "!"

def minusMark : String := "-"

def isOperator (token : Token) (symbol : String) : Bool :=
  token.kind == .operator && token.text == symbol

/-! ## Stepping over a token -/

def after? (accepts : Token → Bool) :
    (tokens : List Token) → Option { rest : List Token // rest.length < tokens.length }
  | [] => none
  | token :: rest => if accepts token then some ⟨rest, Nat.lt_succ_self _⟩ else none

def afterKind? (kind : TokenKind) (tokens : List Token) :
    Option { rest : List Token // rest.length < tokens.length } :=
  after? (fun token => token.kind == kind) tokens

/-! ## Character classes -/

/-- A numeral is made of digits and at most one point, and may start with either. -/
def startsNumeral (c : Char) : Bool :=
  c.isDigit || c == '.'

def isMark (c : Char) : Bool :=
  c == '(' || c == ')' || c == ','

/-- The characters of an operator run: whatever no other kind of token claims. A point belongs
to the run once it has begun. -/
def continuesOperator (c : Char) : Bool :=
  !c.isAlphanum && !Text.isBlank c && !isMark c

end Token

end Formula
