import Formula.Binary64.Whole

/-!
# Decimal digits of doubles

A finite magnitude is a quotient of natural numbers, and its decimal digits are
computed from that quotient without rounding on the way: the shortest digits that
still read back as the same double, and the digits of a fixed precision.

`Places` is what both produce: the digits as one number, and the power of ten they
count.
-/

namespace Formula

namespace Decimal

/-- The decimal number `digits · 10 ^ exponent`. -/
structure Places where
  digits : Nat
  exponent : Int
  deriving DecidableEq, Repr

structure Quotient where
  numerator : Nat
  denominator : Nat

namespace Quotient

/-- The magnitude `mantissa · 2 ^ exponent`. -/
def scaled (mantissa : Nat) (exponent : Int) : Quotient :=
  ⟨mantissa * Nat.pow 2 exponent.toNat, Nat.pow 2 (-exponent).toNat⟩

def inUnits (q : Quotient) (exponent : Int) : Quotient :=
  ⟨q.numerator * Nat.pow 10 (-exponent).toNat, q.denominator * Nat.pow 10 exponent.toNat⟩

def reaches (q : Quotient) (exponent : Int) : Bool :=
  let u := q.inUnits exponent
  u.denominator ≤ u.numerator

/-- The exponent of the leading decimal digit. The quotient lies below `2 ^ (bits + 1)` and
above a quarter of that, so with `log10 2` near `0.30103` three candidates are left. -/
def leadingExponent (q : Quotient) : Int :=
  let bits : Int := q.numerator.log2 - q.denominator.log2
  let upper := (bits + 1) * 30103 / 100000 + 1
  if q.reaches upper then upper
  else if q.reaches (upper - 1) then upper - 1
  else upper - 2

end Quotient

inductive Tie where
  | away
  | even
  deriving DecidableEq, Repr

def nearestWhole (tie : Tie) (q : Quotient) : Nat :=
  let whole := q.numerator / q.denominator
  let double := 2 * (q.numerator % q.denominator)
  if double < q.denominator then whole
  else if q.denominator < double then whole + 1
  else
    match tie with
    | .away => whole + 1
    | .even => if whole % 2 = 0 then whole else whole + 1

/-- The nearest decimal number of `precision` digits, where a tie goes to the even digit. -/
def ofPrecision (precision : Nat) (q : Quotient) : Places :=
  let exponent := q.leadingExponent + 1 - precision
  let digits := nearestWhole .even (q.inUnits exponent)
  if digits = Nat.pow 10 precision then ⟨Nat.pow 10 (precision - 1), exponent + 1⟩
  else ⟨digits, exponent⟩

/-- The numbers that round to the double `mantissa · 2 ^ exponent`, in units of
`2 ^ (exponent - 2)`: half the distance to either neighbour, which below a power of two is the
shorter distance. Its ends belong to it for an even mantissa. -/
structure Basin where
  lower : Nat
  upper : Nat
  closed : Bool

def basin (mantissa : Nat) (exponent : Int) : Basin where
  lower := 4 * mantissa - if mantissa = Nat.pow 2 52 ∧ -1074 < exponent then 1 else 2
  upper := 4 * mantissa + 2
  closed := mantissa % 2 = 0

def Basin.holds (b : Basin) (exponent : Int) (p : Places) : Bool :=
  let value := p.digits * Nat.pow 10 p.exponent.toNat * Nat.pow 2 (-exponent).toNat
  let unit := Nat.pow 10 (-p.exponent).toNat * Nat.pow 2 exponent.toNat
  if b.closed then b.lower * unit ≤ value && value ≤ b.upper * unit
  else b.lower * unit < value && value < b.upper * unit

/-- The multiples of `10 ^ exponent` on either side of a quotient, the nearer one first;
midway the upper one is first. -/
def neighbours (q : Quotient) (exponent : Int) : List Places :=
  let u := q.inUnits exponent
  let whole := u.numerator / u.denominator
  if nearestWhole .away u = whole then [⟨whole, exponent⟩, ⟨whole + 1, exponent⟩]
  else [⟨whole + 1, exponent⟩, ⟨whole, exponent⟩]

/-- The shortest decimal number that reads back as `mantissa · 2 ^ exponent`, and of these the
nearest. Seventeen digits always suffice. -/
def shortest (mantissa : Nat) (exponent : Int) : Places :=
  let q := Quotient.scaled mantissa exponent
  let leading := q.leadingExponent
  let candidates := (List.range 17).flatMap fun (n : Nat) => neighbours q (leading - n)
  (candidates.find? ((basin mantissa exponent).holds (exponent - 2))).getD
    (ofPrecision 17 q)

end Decimal

end Formula
