import Formula.Binary64.Elementary
import Formula.Function

/-!
# Arithmetic builtins

Sign, whole numbers and factorial.
-/

namespace Formula

namespace Builtin

/-- The product of the whole numbers from one to `count`, multiplied upward. -/
def ascendingProduct (count : Nat) : Float :=
  (List.range count).foldl (fun product i => product * Float.ofNat (i + 1)) 1

/-- The factorial of a whole number that is not negative. From 171 on it exceeds every double,
so larger arguments need no longer product. -/
def factorial? (x : Float) : Option Float :=
  if x < 0 || Binary64.floor x != x then none
  else some (ascendingProduct (Binary64.wholePart (if x < 171 then x else 171)))

/-- The factorial, which is not a number where there is none. -/
def factorial (x : Float) : Float :=
  (factorial? x).getD Binary64.nan

def fraction (x : Float) : Float :=
  x - Binary64.floor x

def sign (x : Float) : Float :=
  if x < 0 then -1
  else if 0 < x then 1
  else 0

def arithmetic : List (String × Function) :=
  [("-", .unary fun x => -x),
    ("abs", .unary Float.abs),
    ("floor", .unary Binary64.floor),
    ("ceil", .unary Binary64.ceil),
    ("round", .unary Binary64.round),
    ("fract", .unary fraction),
    ("sign", .unary sign),
    ("fact", .unary factorial)]

end Builtin

end Formula
