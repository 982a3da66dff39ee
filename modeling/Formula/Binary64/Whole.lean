/-!
# Whole numbers and remainders of doubles

A finite double is `± mantissa · 2 ^ exponent`. The operations here compute on
these exact parts: the three roundings to a whole number, the whole part of a
magnitude, and the remainder of a division. Each result is again a double, so
nothing is rounded twice.
-/

namespace Formula

namespace Binary64

open Float.Model (UnpackedFloat)

/-- The double nearest to `± mantissa · 2 ^ exponent`; a tie goes to the even neighbour. -/
def nearest (sign : UnpackedFloat.Sign) (mantissa : Nat) (exponent : Int) : Float :=
  .ofModel (.pack (.round .binary64 sign mantissa exponent))

inductive Rounding where
  | down
  | up
  /-- To the nearer whole number; a half goes away from zero. -/
  | nearer
  deriving DecidableEq, Repr

/-- Whether the rule moves `± (whole + part / unit)` away from zero, to `± (whole + 1)`,
rather than to `± whole`. -/
def Rounding.raises (rule : Rounding) (sign : UnpackedFloat.Sign) (part unit : Nat) : Bool :=
  match rule with
  | .down => part != 0 && sign == .negative
  | .up => part != 0 && sign == .positive
  | .nearer => unit ≤ 2 * part

/-- Round `x` to a whole number. A zero keeps the sign of `x`. -/
def toWhole (rule : Rounding) (x : Float) : Float :=
  match x.toModel.unpack with
  | .finite sign mantissa exponent _ =>
      if 0 ≤ exponent then x
      else
        let unit := Nat.pow 2 (-exponent).toNat
        let whole := mantissa / unit
        nearest sign (if rule.raises sign (mantissa % unit) unit then whole + 1 else whole) 0
  | _ => x

def floor (x : Float) : Float :=
  toWhole .down x

def ceil (x : Float) : Float :=
  toWhole .up x

/-- The whole number nearest to `x`; a half goes away from zero. -/
def round (x : Float) : Float :=
  toWhole .nearer x

/-- The whole part of the magnitude of `x`, and `0` where there is none. -/
def wholePart (x : Float) : Nat :=
  match x.toModel.unpack with
  | .finite _ mantissa exponent _ =>
      if 0 ≤ exponent then mantissa * Nat.pow 2 exponent.toNat
      else mantissa / Nat.pow 2 (-exponent).toNat
  | _ => 0

/-- The remainder of `x` by `y` after a quotient cut toward zero: exact, below `y` in
magnitude, with the sign of `x`. There is none for an infinite `x` or a zero `y`. -/
def remainder (x y : Float) : Float :=
  match x.toModel.unpack, y.toModel.unpack with
  | .notANumber, _ | _, .notANumber | .infinity _, _ | _, .zero _ => .ofModel (.pack .notANumber)
  | .zero _, _ | _, .infinity _ => x
  | .finite sign m e _, .finite _ n f _ =>
      let unit := min e f
      nearest sign (m * Nat.pow 2 (e - unit).toNat % (n * Nat.pow 2 (f - unit).toNat)) unit

end Binary64

end Formula
