import Formula.Operator

/-!
# Expressions

The tree a formula is read into. Prefix minus and postfix factorial are calls of
the names `-` and `!`.
-/

namespace Formula

inductive Expression where
  | number (value : Float)
  | var (name : String)
  | binary (operator : Operator) (left right : Expression)
  | call (name : String) (args : List Expression)
  deriving Repr

end Formula
