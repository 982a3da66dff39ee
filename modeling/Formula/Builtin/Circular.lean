import Formula.Binary64.Elementary
import Formula.Function

/-!
# Circular and hyperbolic builtins
-/

namespace Formula

namespace Builtin

def circular : List (String × Function) :=
  [("sin", .unary Float.sin),
    ("cos", .unary Float.cos),
    ("tan", .unary Float.tan),
    ("asin", .unary Float.asin),
    ("acos", .unary Float.acos),
    ("atan", .unary Float.atan),
    ("atan2", .binary Float.atan2),
    ("sinh", .unary Float.sinh),
    ("cosh", .unary Float.cosh),
    ("tanh", .unary Float.tanh),
    ("asinh", .unary Float.asinh),
    ("acosh", .unary Float.acosh),
    ("atanh", .unary Binary64.artanh)]

end Builtin

end Formula
