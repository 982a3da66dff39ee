import Formula.Binary64.Elementary
import Formula.Function

/-!
# Shaping builtins

Functions that bend a curve: selections, ramps and blends, as shading languages
define them. Selections test one order only, so a comparison that fails because an
operand is not a number selects the second operand.
-/

namespace Formula

namespace Builtin

/-- The lesser of two values, and `y` if they do not compare. -/
def lesser (x y : Float) : Float :=
  if x < y then x else y

/-- The greater of two values, and `y` if they do not compare. -/
def greater (x y : Float) : Float :=
  if y < x then x else y

def step (edge x : Float) : Float :=
  if x < edge then 0 else 1

/-- The magnitude of `v`, rounded off near zero by `k`. -/
def smoothMagnitude (v k : Float) : Float :=
  (v * v + k.abs).sqrt

/-- `x` held between two bounds; the upper one wins if they cross. -/
def clamp (x lower upper : Float) : Float :=
  lesser (greater x lower) upper

def saturate (x : Float) : Float :=
  clamp x 0 1

def mix (x y a : Float) : Float :=
  x * (1 - a) + y * a

/-- A ramp from zero at `lower` to one at `upper`, level at both ends. -/
def smoothStep (lower upper x : Float) : Float :=
  let t := clamp ((x - lower) / (upper - lower)) 0 1
  t * t * (3 - 2 * t)

def shaping : List (String × Function) :=
  [("mod", .binary Binary64.remainder),
    ("min", .binary lesser),
    ("max", .binary greater),
    ("step", .binary step),
    ("hypot", .binary Binary64.hypotenuse),
    ("smoothabs", .binary smoothMagnitude),
    ("clamp", .ternary clamp),
    ("saturate", .unary saturate),
    ("lerp", .ternary mix),
    ("mix", .ternary mix),
    ("smoothstep", .ternary smoothStep)]

end Builtin

end Formula
