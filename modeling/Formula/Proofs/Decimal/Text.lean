import Formula.Decimal.Text
import Formula.Proofs.Token.Numeral
import Mathlib.Algebra.Ring.Nat

/-!
# Positional text

What `positional` writes is a numeral, and it is read as the double nearest to the number
that was written. `trimmed` takes only zeros off the digits, so both write one number.
-/

namespace Formula

open Token (numeralValue takeWhile_append_stop dropWhile_append_stop)

namespace Token

theorem numeralValue_digits {whole : List Char} (h : ∀ c ∈ whole, c.isDigit = true) :
    numeralValue whole = .ofScientific (Nat.ofDigitChars 10 whole 0) true 0 := by
  have htake : whole.takeWhile Char.isDigit = whole := List.takeWhile_eq_self_iff.2 h
  have hdrop : whole.dropWhile Char.isDigit = [] := List.dropWhile_eq_nil_iff.2 h
  simp [numeralValue, htake, hdrop]

theorem numeralValue_point {whole part : List Char} (h : ∀ c ∈ whole, c.isDigit = true) :
    numeralValue (whole ++ '.' :: part) =
      .ofScientific (Nat.ofDigitChars 10 (whole ++ part) 0) true part.length := by
  have hstop : ∀ c ∈ ('.' :: part).head?, c.isDigit = false := by
    simp only [List.head?_cons, Option.mem_def, Option.some.injEq, forall_eq']
    decide
  simp [numeralValue, takeWhile_append_stop h hstop, dropWhile_append_stop h hstop]

end Token

namespace Decimal

namespace Places

variable (p : Places)

/-- The double nearest to a decimal number. -/
def nearest : Float :=
  .ofScientific (p.digits * 10 ^ p.exponent.toNat) true (-p.exponent).toNat

/-! ## Digits -/

theorem isDigit_shown (p : Places) : ∀ c ∈ Nat.toDigits 10 p.digits, c.isDigit = true :=
  fun _ => Nat.isDigit_of_mem_toDigits (by decide) (by decide)

theorem isDigit_replicate (count : Nat) : ∀ c ∈ List.replicate count '0', c.isDigit = true := by
  intro c hmem
  rw [List.eq_of_mem_replicate hmem]
  decide

theorem ofDigitChars_shown : Nat.ofDigitChars 10 (Nat.toDigits 10 p.digits) 0 = p.digits :=
  Nat.ofDigitChars_toDigits (by decide) (by decide)

/-! ## Reading back -/

variable {p}

theorem positional_of_nonneg (h : 0 ≤ p.exponent) :
    p.positional = Nat.toDigits 10 p.digits ++ List.replicate p.exponent.toNat '0' := by
  unfold positional
  rw [if_pos h]

/-- Below the unit the digits are padded, so that one of them stands before the point. -/
theorem exists_positional_of_neg (h : p.exponent < 0) :
    ∃ zeros whole part, p.positional = whole ++ '.' :: part ∧
      whole ++ part = List.replicate zeros '0' ++ Nat.toDigits 10 p.digits ∧ whole ≠ [] ∧
      part.length = (-p.exponent).toNat := by
  generalize hpadded : List.replicate ((-p.exponent).toNat + 1 - (Nat.toDigits 10 p.digits).length)
    '0' ++ Nat.toDigits 10 p.digits = padded
  have hlong : (-p.exponent).toNat < padded.length := by
    rw [← hpadded, List.length_append, List.length_replicate]
    omega
  refine ⟨_, padded.take (padded.length - (-p.exponent).toNat),
    padded.drop (padded.length - (-p.exponent).toNat), ?_,
    (List.take_append_drop _ _).trans hpadded.symm, ?_, ?_⟩
  · unfold positional
    rw [if_neg (by omega)]
    simp only [hpadded]
  · rw [ne_eq, List.take_eq_nil_iff, ← List.length_eq_zero_iff]
    omega
  · rw [List.length_drop]
    omega

/-- A positional text is read as the double nearest to the number it writes. -/
theorem read?_positional (p : Places) : read? p.positional = some p.nearest := by
  by_cases hexponent : 0 ≤ p.exponent
  · have hdigits : ∀ c ∈ p.positional, c.isDigit = true := by
      rw [positional_of_nonneg hexponent]
      exact List.forall_mem_append.2 ⟨p.isDigit_shown, isDigit_replicate _⟩
    have hne : p.positional ≠ [] := by simp [positional_of_nonneg hexponent, Nat.toDigits_ne_nil]
    have hpoint : p.positional ≠ ['.'] := by
      intro heq
      rw [heq] at hdigits
      exact absurd (hdigits '.' List.mem_cons_self) (by decide)
    have hplaces : (-p.exponent).toNat = 0 := by omega
    rw [Token.read?_of_isNumeral (Token.isNumeral_digits hne hdigits) hpoint,
      Token.numeralValue_digits hdigits, positional_of_nonneg hexponent, nearest, hplaces,
      Nat.ofDigitChars_append, ofDigitChars_shown, Nat.ofDigitChars_replicate_zero, Nat.mul_comm]
  · obtain ⟨zeros, whole, part, htext, hchars, hwhole, hlength⟩ :=
      exists_positional_of_neg (Int.not_le.1 hexponent)
    have hdigits : (∀ c ∈ whole, c.isDigit = true) ∧ ∀ c ∈ part, c.isDigit = true := by
      rw [← List.forall_mem_append, hchars]
      exact List.forall_mem_append.2 ⟨isDigit_replicate _, p.isDigit_shown⟩
    have hpoint : whole ++ '.' :: part ≠ ['.'] := by
      intro heq
      have hlengths := congrArg List.length heq
      have hpositive := List.length_pos_iff.2 hwhole
      simp only [List.length_append, List.length_cons, List.length_nil] at hlengths
      omega
    have hscale : p.exponent.toNat = 0 := by omega
    rw [htext, Token.read?_of_isNumeral (Token.isNumeral_point hdigits.1 hdigits.2) hpoint,
      Token.numeralValue_point hdigits.1, nearest, hscale, hlength, hchars,
      Nat.ofDigitChars_append, Nat.ofDigitChars_replicate_zero, Nat.mul_zero, ofDigitChars_shown,
      Nat.pow_zero, Nat.mul_one]

/-! ## Trimming -/

/-- Digits that end in zeros are a multiple of a power of ten. -/
theorem pow_idle_dvd (p : Places) :
    10 ^ ((Nat.toDigits 10 p.digits).reverse.takeWhile (· == '0')).length ∣ p.digits := by
  generalize hidle : (Nat.toDigits 10 p.digits).reverse.takeWhile (· == '0') = idle
  have hzeros : idle = List.replicate idle.length '0' := by
    refine List.eq_replicate_iff.2 ⟨rfl, fun c hmem => ?_⟩
    rw [← hidle] at hmem
    simpa using List.all_eq_true.1 List.all_takeWhile c hmem
  have hjoin := List.takeWhile_append_dropWhile (p := (· == '0'))
    (l := (Nat.toDigits 10 p.digits).reverse)
  rw [hidle, hzeros, ← List.reverse_inj, List.reverse_reverse, List.reverse_append,
    List.reverse_replicate] at hjoin
  have hvalue := p.ofDigitChars_shown
  rw [← hjoin, Nat.ofDigitChars_append, Nat.ofDigitChars_replicate_zero] at hvalue
  exact ⟨_, hvalue.symm⟩

theorem exists_trimmed (p : Places) :
    ∃ idle : Nat, p.trimmed.exponent = p.exponent + idle ∧
      p.trimmed.digits * 10 ^ idle = p.digits := by
  unfold trimmed
  split
  · exact ⟨0, by simp, by simp⟩
  · exact ⟨_, rfl, Nat.div_mul_cancel p.pow_idle_dvd⟩

end Places

/-- The text of a finite double is its sign and a numeral, which is read as the double nearest
to its shortest digits; zeros at their end only move the point. -/
theorem exists_numeral_plain {x : Float} {sign : Float.Model.UnpackedFloat.Sign}
    {mantissa : Nat} {exponent : Int} {hpos : 0 < mantissa}
    (h : x.toModel.unpack = .finite sign mantissa exponent hpos) :
    ∃ (numeral : List Char) (p : Places) (idle : Nat),
      (plain x).toList = signText sign ++ numeral ∧ read? numeral = some p.nearest ∧
        p.exponent = (shortest mantissa exponent).exponent + idle ∧
        p.digits * 10 ^ idle = (shortest mantissa exponent).digits := by
  obtain ⟨idle, hexponent, hdigits⟩ := (shortest mantissa exponent).exists_trimmed
  refine ⟨_, _, idle, ?_, Places.read?_positional _, hexponent, hdigits⟩
  rw [plain, written, h, String.toList_ofList]

/-- Of two shortest candidates the nearer one is written, and midway the upper one. -/
example : plain 18446744073709572096 = "18446744073709572000" ∧
    plain (-223.525177001953125) = "-223.52517700195313" := by
  decide +kernel

end Decimal

end Formula
