import Formula.Binary64.Elementary
import Formula.Function

/-!
# Logarithms, roots and powers
-/

namespace Formula

namespace Builtin

/-- A power, which is not a number for a negative base. -/
def power (base exponent : Float) : Float :=
  if base < 0 then Binary64.nan else base.pow exponent

def growth : List (String × Function) :=
  [("ln", .unary Float.log),
    ("log", .unary Float.log),
    ("log1p", .unary Binary64.logOnePlus),
    ("logb", .unary Binary64.binaryExponent),
    ("log2", .unary Float.log2),
    ("log10", .unary Float.log10),
    ("sqrt", .unary Float.sqrt),
    ("exp", .unary Float.exp),
    ("pow", .binary power)]

end Builtin

end Formula
