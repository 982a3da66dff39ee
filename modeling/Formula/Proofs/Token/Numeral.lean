import Formula.Decimal.Numeral
import Formula.Proofs.Token.Lexeme
import Mathlib.Data.List.TakeWhile

/-!
# Numerals

A numeral is a run of digits or two runs around a point. The scanner splits off the
longest one, and all but the lone point have a value.
-/

namespace Formula

namespace Token

/-! ## Longest runs -/

theorem takeWhile_append_stop {p : Char → Bool} {body rest : List Char}
    (hbody : ∀ c ∈ body, p c = true) (hrest : ∀ c ∈ rest.head?, p c = false) :
    (body ++ rest).takeWhile p = body := by
  rw [List.takeWhile_append_of_pos hbody]
  cases rest with
  | nil => simp
  | cons c cs => simp [hrest c rfl]

theorem dropWhile_append_stop {p : Char → Bool} {body rest : List Char}
    (hbody : ∀ c ∈ body, p c = true) (hrest : ∀ c ∈ rest.head?, p c = false) :
    (body ++ rest).dropWhile p = rest := by
  rw [List.dropWhile_append_of_pos hbody]
  cases rest with
  | nil => simp
  | cons c cs => simp [hrest c rfl]

theorem mem_takeWhile {p : Char → Bool} {cs : List Char} {c : Char}
    (h : c ∈ cs.takeWhile p) : p c = true :=
  List.all_eq_true.1 List.all_takeWhile c h

theorem head_dropWhile {p : Char → Bool} {cs : List Char} :
    ∀ c ∈ (cs.dropWhile p).head?, p c = false := by
  intro c hc
  have h := List.head?_dropWhile_not p cs
  rw [Option.mem_def.1 hc] at h
  exact h

/-! ## Numerals -/

theorem IsNumeral.digits_or_point {cs : List Char} (h : IsNumeral cs) :
    (∀ c ∈ cs, c.isDigit = true) ∨
      ∃ whole part, cs = whole ++ '.' :: part ∧ (∀ c ∈ whole, c.isDigit = true) ∧
        ∀ c ∈ part, c.isDigit = true := by
  rcases h with ⟨-, hchars, hcount⟩
  by_cases hpoint : '.' ∈ cs
  · rcases List.append_of_mem hpoint with ⟨whole, part, rfl⟩
    rw [List.count_append, List.count_cons_self] at hcount
    have hwhole : '.' ∉ whole := List.count_eq_zero.1 (by omega)
    have hpart : '.' ∉ part := List.count_eq_zero.1 (by omega)
    refine .inr ⟨whole, part, rfl, fun c hc => ?_, fun c hc => ?_⟩
    · exact (hchars c (by simp [hc])).resolve_right (ne_of_mem_of_not_mem hc hwhole)
    · exact (hchars c (by simp [hc])).resolve_right (ne_of_mem_of_not_mem hc hpart)
  · exact .inl fun c hc => (hchars c hc).resolve_right (ne_of_mem_of_not_mem hc hpoint)

theorem isNumeral_digits {cs : List Char} (hne : cs ≠ [])
    (hcs : ∀ c ∈ cs, c.isDigit = true) : IsNumeral cs := by
  refine ⟨hne, fun c hc => .inl (hcs c hc), ?_⟩
  have hpoint : '.' ∉ cs := fun h => absurd (hcs _ h) (by decide)
  simp [List.count_eq_zero.2 hpoint]

theorem isNumeral_point {whole part : List Char} (hwhole : ∀ c ∈ whole, c.isDigit = true)
    (hpart : ∀ c ∈ part, c.isDigit = true) : IsNumeral (whole ++ '.' :: part) := by
  have hw : '.' ∉ whole := fun h => absurd (hwhole _ h) (by decide)
  have hp : '.' ∉ part := fun h => absurd (hpart _ h) (by decide)
  refine ⟨by simp, fun c hc => ?_, ?_⟩
  · rcases List.mem_append.1 hc with hc | hc
    · exact .inl (hwhole c hc)
    · rcases List.mem_cons.1 hc with rfl | hc
      · exact .inr rfl
      · exact .inl (hpart c hc)
  · simp [List.count_append, List.count_eq_zero.2 hw, List.count_eq_zero.2 hp]

theorem splitNumeral_append {numeral rest : List Char} (h : IsNumeral numeral)
    (hrest : ∀ c ∈ rest.head?, ¬ (c.isDigit = true ∨ (c = '.' ∧ '.' ∉ numeral))) :
    splitNumeral (numeral ++ rest) = (numeral, rest) := by
  have hdigit : ∀ c ∈ rest.head?, c.isDigit = false := fun c hc => by
    simpa using fun hd => hrest c hc (.inl hd)
  rcases h.digits_or_point with hdigits | ⟨whole, part, rfl, hwhole, hpart⟩
  · have htake := takeWhile_append_stop hdigits hdigit
    have hdrop := dropWhile_append_stop hdigits hdigit
    have hpoint : '.' ∉ numeral := fun hmem => absurd (hdigits _ hmem) (by decide)
    unfold splitNumeral
    rw [htake, hdrop]
    split
    · exact absurd (Or.inr ⟨rfl, hpoint⟩) (hrest '.' rfl)
    · rfl
  · have hstop : ∀ c ∈ ('.' :: (part ++ rest)).head?, c.isDigit = false := by
      simp only [List.head?_cons, Option.mem_def, Option.some.injEq, forall_eq']
      decide
    have htake := takeWhile_append_stop hwhole hstop
    have hdrop := dropWhile_append_stop hwhole hstop
    unfold splitNumeral
    rw [List.append_assoc, List.cons_append, htake, hdrop]
    simp only [takeWhile_append_stop hpart hdigit, dropWhile_append_stop hpart hdigit]

theorem splitNumeral_spec {c : Char} (hc : startsNumeral c = true) (cs : List Char) :
    IsNumeral (splitNumeral (c :: cs)).1 ∧
      (splitNumeral (c :: cs)).1 ++ (splitNumeral (c :: cs)).2 = c :: cs ∧
      ∀ d ∈ (splitNumeral (c :: cs)).2.head?,
        ¬ (d.isDigit = true ∨ (d = '.' ∧ '.' ∉ (splitNumeral (c :: cs)).1)) := by
  have hjoin := List.takeWhile_append_dropWhile (p := Char.isDigit) (l := c :: cs)
  have hwhole : ∀ d ∈ (c :: cs).takeWhile Char.isDigit, d.isDigit = true := fun d =>
    mem_takeWhile
  unfold splitNumeral
  split
  · rename_i rest hrest
    rw [hrest] at hjoin
    refine ⟨isNumeral_point hwhole fun d => mem_takeWhile, by simpa using hjoin, ?_⟩
    intro d hd
    simp [head_dropWhile d hd]
  · rename_i hnopoint
    have hdigit : c.isDigit = true := by
      simp only [startsNumeral, Bool.or_eq_true, beq_iff_eq] at hc
      rcases hc with hd | rfl
      · exact hd
      · exact (hnopoint cs (List.dropWhile_cons_of_neg (by decide))).elim
    refine ⟨isNumeral_digits ?_ hwhole, hjoin, fun d hd => ?_⟩
    · simp [List.takeWhile_cons_of_pos hdigit]
    · intro h
      rcases h with hd' | ⟨rfl, -⟩
      · simp [head_dropWhile d hd] at hd'
      · rcases List.head?_eq_some_iff.1 hd with ⟨rest, hrest⟩
        exact hnopoint rest hrest

/-! ## Values -/

/-- The double nearest to the decimal fraction that a numeral writes: all its digits as one
number, over the power of ten that counts those after the point. -/
def numeralValue (numeral : List Char) : Float :=
  let whole := numeral.takeWhile Char.isDigit
  let part := (numeral.dropWhile Char.isDigit).drop 1
  .ofScientific (Nat.ofDigitChars 10 (whole ++ part) 0) true part.length

theorem numeralValue_eq (whole part : List Char) :
    Decimal.numeralValue whole part =
      .ofScientific (Nat.ofDigitChars 10 (whole ++ part) 0) true part.length := by
  rw [Decimal.numeralValue, Decimal.digitsValue, Nat.ofDigitChars_eq_foldl]

theorem read?_of_isNumeral {numeral : List Char} (h : IsNumeral numeral)
    (hpoint : numeral ≠ ['.']) : Decimal.read? numeral = some (numeralValue numeral) := by
  rcases h.digits_or_point with hdigits | ⟨whole, part, rfl, hwhole, hpart⟩
  · have htake : numeral.takeWhile Char.isDigit = numeral := List.takeWhile_eq_self_iff.2 hdigits
    have hdrop : numeral.dropWhile Char.isDigit = [] := List.dropWhile_eq_nil_iff.2 hdigits
    have hne : numeral.isEmpty = false := by simpa using h.1
    simp [Decimal.read?, numeralValue, numeralValue_eq, htake, hdrop, hne]
  · have hstop : ∀ c ∈ ('.' :: part).head?, c.isDigit = false := by
      simp only [List.head?_cons, Option.mem_def, Option.some.injEq, forall_eq']
      decide
    have hpartAll : part.all Char.isDigit = true := List.all_eq_true.2 hpart
    have hsome : (whole.isEmpty && part.isEmpty) = false := by
      cases whole with
      | nil => simpa using hpoint
      | cons c cs => simp
    simp [Decimal.read?, numeralValue, numeralValue_eq, takeWhile_append_stop hwhole hstop,
      dropWhile_append_stop hwhole hstop, hpartAll, hsome]

/-- The lone point is in the language of numerals but has no value. -/
theorem read?_point : Decimal.read? ['.'] = none := by
  decide

end Token

end Formula
