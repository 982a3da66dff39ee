import Formula.Decimal.Digits

/-!
# Doubles as text

`plain` writes a double by its shortest digits in positional notation, with neither
an exponent nor a trailing point. `scientific` writes a fixed number of digits and
an exponent. Zero keeps its sign in both.
-/

namespace Formula

namespace Decimal

open Float.Model (UnpackedFloat)

def Places.positional (p : Places) : List Char :=
  let shown := Nat.toDigits 10 p.digits
  if 0 ≤ p.exponent then
    shown ++ List.replicate p.exponent.toNat '0'
  else
    let after := (-p.exponent).toNat
    let padded := List.replicate (after + 1 - shown.length) '0' ++ shown
    let before := padded.length - after
    padded.take before ++ '.' :: padded.drop before

/-- Drop the zeros that end the digits, so that no digit after the point is idle. -/
def Places.trimmed (p : Places) : Places :=
  let shown := Nat.toDigits 10 p.digits
  let idle := (shown.reverse.takeWhile (· == '0')).length
  if p.digits = 0 then p else ⟨p.digits / Nat.pow 10 idle, p.exponent + idle⟩

/-- A decimal number of `precision` digits with one digit before the point and an exponent
after the rest. -/
def Places.exponential (p : Places) (precision : Nat) : List Char :=
  let shown := Nat.toDigits 10 p.digits
  let padded := shown ++ List.replicate (precision - shown.length) '0'
  let exponent := p.exponent + (shown.length - 1 : Nat)
  let point := if precision ≤ 1 then [] else ['.']
  padded.take 1 ++ point ++ padded.drop 1 ++ 'e' :: (toString exponent).toList

def signText : UnpackedFloat.Sign → List Char
  | .negative => ['-']
  | .positive => []

/-- A double as text, given the text of zero and of the magnitude `mantissa · 2 ^ exponent`. -/
def written (zero : List Char) (finite : Nat → Int → List Char) (x : Float) : String :=
  match x.toModel.unpack with
  | .notANumber => "NaN"
  | .infinity sign => String.ofList (signText sign ++ "inf".toList)
  | .zero sign => String.ofList (signText sign ++ zero)
  | .finite sign mantissa exponent _ =>
      String.ofList (signText sign ++ finite mantissa exponent)

/-- The shortest text that reads back as the same double. -/
def plain (x : Float) : String :=
  written ['0'] (fun mantissa exponent => (shortest mantissa exponent).trimmed.positional) x

/-- A double rounded to `precision` digits, at least one, in scientific notation. A half goes
to the even digit. -/
def scientific (precision : Nat) (x : Float) : String :=
  written (Places.exponential ⟨0, 0⟩ precision)
    (fun mantissa exponent =>
      (ofPrecision precision (.scaled mantissa exponent)).exponential precision)
    x

end Decimal

end Formula
