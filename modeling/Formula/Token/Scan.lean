import Formula.Token

/-!
# Scanning

`Token.scan` cuts a text into tokens from the left. The first character that is
not blank fixes the kind of the token, and the token takes the longest run of
characters its kind admits. No text is refused: a character without a meaning
joins an operator run, and the reader of expressions reports it.

`first_length_le` bounds what a token leaves behind, which is why scanning ends.
-/

namespace Formula

namespace Token

/-- Split off the longest numeral: digits, then at most one point and its digits. -/
def splitNumeral (cs : List Char) : List Char × List Char :=
  match cs.dropWhile Char.isDigit with
  | '.' :: rest =>
      (cs.takeWhile Char.isDigit ++ '.' :: rest.takeWhile Char.isDigit,
        rest.dropWhile Char.isDigit)
  | rest => (cs.takeWhile Char.isDigit, rest)

/-- The token that starts at `c`, a character that is not blank, and what follows it. -/
def first (c : Char) (cs : List Char) : Token × List Char :=
  if startsNumeral c then
    (⟨.number, String.ofList (splitNumeral (c :: cs)).1⟩, (splitNumeral (c :: cs)).2)
  else if c.isAlpha then
    (⟨.name, String.ofList (c :: cs.takeWhile Char.isAlphanum)⟩,
      cs.dropWhile Char.isAlphanum)
  else if c == '(' then
    (⟨.opening, "("⟩, cs)
  else if c == ')' then
    (⟨.closing, ")"⟩, cs)
  else if c == ',' then
    (⟨.separator, ","⟩, cs)
  else
    (⟨.operator, String.ofList (c :: cs.takeWhile continuesOperator)⟩,
      cs.dropWhile continuesOperator)

theorem splitNumeral_length_le {c : Char} (hc : startsNumeral c = true) (cs : List Char) :
    (splitNumeral (c :: cs)).2.length ≤ cs.length := by
  have drop (p : Char → Bool) (l : List Char) : (l.dropWhile p).length ≤ l.length :=
    (List.dropWhile_sublist p).length_le
  by_cases hd : c.isDigit = true
  · have hle := drop Char.isDigit cs
    unfold splitNumeral
    rw [List.dropWhile_cons_of_pos hd]
    split
    · rename_i rest hrest
      have := drop Char.isDigit rest
      simp only [hrest, List.length_cons] at hle
      simp only
      omega
    · exact hle
  · obtain rfl : c = '.' := by simpa [startsNumeral, hd] using hc
    have hdot : Char.isDigit '.' = false := by decide
    simpa [splitNumeral, List.dropWhile, List.takeWhile, hdot] using drop Char.isDigit cs

theorem first_length_le (c : Char) (cs : List Char) :
    (first c cs).2.length ≤ cs.length := by
  have drop (p : Char → Bool) : (cs.dropWhile p).length ≤ cs.length :=
    (List.dropWhile_sublist p).length_le
  unfold first
  split
  · exact splitNumeral_length_le ‹_› cs
  · split
    · exact drop _
    · split
      · exact Nat.le_refl _
      · split
        · exact Nat.le_refl _
        · split
          · exact Nat.le_refl _
          · exact drop _

def scan : List Char → List Token
  | [] => []
  | c :: cs =>
      if Text.isBlank c then scan cs
      else (first c cs).1 :: scan (first c cs).2
termination_by cs => cs.length
decreasing_by
  · simp
  · exact Nat.lt_succ_of_le (first_length_le c cs)

def ofText (text : String) : List Token :=
  scan text.toList

end Token

end Formula
