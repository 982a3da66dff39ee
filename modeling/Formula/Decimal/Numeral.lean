/-!
# Reading numerals

A numeral is a string of digits with at most one point, and its value is the
double nearest to the decimal fraction it writes, however long it is.
-/

namespace Formula

namespace Decimal

def digitsValue (digits : List Char) : Nat :=
  digits.foldl (fun value digit => 10 * value + (digit.toNat - '0'.toNat)) 0

/-- The double nearest to the numeral `whole . part`. -/
def numeralValue (whole part : List Char) : Float :=
  .ofScientific (digitsValue (whole ++ part)) true part.length

/-- Read a numeral. The digits may be missing on either side of the point, but not on both. -/
def read? (numeral : List Char) : Option Float :=
  let whole := numeral.takeWhile Char.isDigit
  match numeral.dropWhile Char.isDigit with
  | [] => if whole.isEmpty then none else some (numeralValue whole [])
  | '.' :: part =>
      if part.all Char.isDigit && !(whole.isEmpty && part.isEmpty) then
        some (numeralValue whole part)
      else none
  | _ => none

end Decimal

end Formula
