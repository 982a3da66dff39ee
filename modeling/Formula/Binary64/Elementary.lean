import Formula.Binary64.Whole

/-!
# Elementary functions of doubles

The hypotenuse, the logarithm near one, the inverse hyperbolic tangent and the binary
exponent, composed from the logarithm and the root of the core library.
-/

namespace Formula

namespace Binary64

def nan : Float := .ofModel (.pack .notANumber)

def infinity : Float := .ofModel (.pack (.infinity .positive))

/-- The length of the hypotenuse over the legs `x` and `y`. Only the quotient of the legs is
squared, so the square of a long leg does not overflow. An infinite leg decides even beside
one that is not a number. -/
def hypotenuse (x y : Float) : Float :=
  if x.isInf || y.isInf then infinity
  else if x.isNaN || y.isNaN then nan
  else
    let long := if x.abs < y.abs then y.abs else x.abs
    let short := if x.abs < y.abs then x.abs else y.abs
    if long == 0 then long
    else long * (1 + (short / long) * (short / long)).sqrt

/-- The logarithm of `1 + x`. The sum loses the low digits of a small `x`, and the factor
`x / (sum - 1)` makes up for them. -/
def logOnePlus (x : Float) : Float :=
  let sum := 1 + x
  if sum == 1 then x
  else if sum.isInf then sum.log
  else sum.log * (x / (sum - 1))

/-- The inverse of the hyperbolic tangent: half the logarithm of `(1 + x) / (1 - x)`, from the
part of that quotient that exceeds one. Next to `-1` this part is rounded to almost `-1`, and
the result keeps few digits. -/
def artanh (x : Float) : Float :=
  0.5 * logOnePlus (2 * x / (1 - x))

/-! ## The binary exponent -/

/-- How far below `2 ^ bits` an integer of that many bits may lie so that the double nearest to
its logarithm, less 1074, is already the whole number `bits - 1074`.

With `d` the distance, the logarithm misses `bits` by `d / (2 ^ bits · ln 2)`; it rounds up
within half a spacing of doubles, which is `2 ^ (-44)` for results above `-1024` and
`2 ^ (-43)` from there on. The factor is `ln 2 · 2 ^ 53`. -/
def logarithmSlack (bits : Nat) : Nat :=
  6243314768165359 * Nat.pow 2 bits / Nat.pow 2 (if bits ≤ 50 then 96 else 97)

/-- The exponent of the leading binary digit of `x`. A number below the normal range is
`mantissa · 2 ^ (-1074)`, and its exponent is that of the double nearest to its logarithm, cut
to a whole number. -/
def binaryExponent (x : Float) : Float :=
  match x.toModel.unpack with
  | .notANumber => x
  | .infinity _ => infinity
  | .zero _ => -infinity
  | .finite _ mantissa exponent _ =>
      let bits := mantissa.log2 + 1
      if bits = 53 then .ofInt (exponent + 52)
      else if Nat.pow 2 bits - mantissa ≤ logarithmSlack bits then .ofInt (bits - 1074)
      else .ofInt (bits - 1075)

end Binary64

end Formula
