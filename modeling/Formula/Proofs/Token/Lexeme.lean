import Formula.Token.Scan

/-!
# Lexemes

The language of each kind of token, and which neighbours would fuse if nothing stood
between them. `Absorbs` is the one-character view of fusing: a token goes on over
the character that follows it.
-/

namespace Formula

namespace Text

/-- The characters of the Unicode property `White_Space`, by their code points. -/
def IsWhiteSpace (c : Char) : Prop :=
  c.toNat ∈ [0x09, 0x0a, 0x0b, 0x0c, 0x0d, 0x20, 0x85, 0xa0, 0x1680, 0x2000, 0x2001, 0x2002,
    0x2003, 0x2004, 0x2005, 0x2006, 0x2007, 0x2008, 0x2009, 0x200a, 0x2028, 0x2029, 0x202f,
    0x205f, 0x3000]

instance (c : Char) : Decidable (IsWhiteSpace c) :=
  inferInstanceAs (Decidable (c.toNat ∈ _))

theorem isBlank_iff {c : Char} : isBlank c = true ↔ IsWhiteSpace c := by
  simp only [isBlank, blankRanges, IsWhiteSpace, List.any_cons, List.any_nil, Bool.or_false,
    Bool.or_eq_true, Bool.and_eq_true, decide_eq_true_eq, List.mem_cons, List.not_mem_nil,
    or_false]
  omega

theorem isBlank_eq_false_iff {c : Char} : isBlank c = false ↔ ¬ IsWhiteSpace c := by
  rw [← isBlank_iff, Bool.not_eq_true]

end Text

namespace Token

/-! ## Languages -/

/-- Digits with at most one point, and not nothing. -/
def IsNumeral (cs : List Char) : Prop :=
  cs ≠ [] ∧ (∀ c ∈ cs, c.isDigit = true ∨ c = '.') ∧ cs.count '.' ≤ 1

/-- A letter and the letters and digits after it. -/
def IsName : List Char → Prop
  | [] => False
  | c :: cs => c.isAlpha = true ∧ ∀ d ∈ cs, d.isAlphanum = true

/-- A character that is no blank, no letter, no digit and none of the marks. -/
def IsOperatorChar (c : Char) : Prop :=
  ¬ Text.IsWhiteSpace c ∧ c.isAlphanum = false ∧ c ≠ '(' ∧ c ≠ ')' ∧ c ≠ ','

instance (c : Char) : Decidable (IsOperatorChar c) :=
  inferInstanceAs (Decidable (_ ∧ _ ∧ _ ∧ _ ∧ _))

/-- A run of operator characters that does not start with a point. -/
def IsOperatorRun : List Char → Prop
  | [] => False
  | c :: cs => (IsOperatorChar c ∧ c ≠ '.') ∧ ∀ d ∈ cs, IsOperatorChar d

/-- The characters of a token belong to the language of its kind. -/
def IsLexeme (token : Token) : Prop :=
  match token.kind with
  | .number => IsNumeral token.text.toList
  | .name => IsName token.text.toList
  | .operator => IsOperatorRun token.text.toList
  | .opening => token.text = "("
  | .closing => token.text = ")"
  | .separator => token.text = ","
  | .function => False

/-- Two tokens that would not be read as these two without a gap between them. -/
def Fuses (left right : Token) : Prop :=
  match left.kind, right.kind with
  | .number, .number => ¬ ('.' ∈ left.text.toList ∧ right.text.toList.head? = some '.')
  | .name, .name => True
  | .name, .number => ∃ c, right.text.toList.head? = some c ∧ c.isDigit = true
  | .operator, .operator => True
  | .operator, .number => right.text.toList.head? = some '.'
  | _, _ => False

/-- The character is read as part of the token if it follows it directly. -/
def Absorbs (token : Token) (c : Char) : Prop :=
  match token.kind with
  | .number => c.isDigit = true ∨ (c = '.' ∧ '.' ∉ token.text.toList)
  | .name => c.isAlphanum = true
  | .operator => IsOperatorChar c
  | _ => False

/-! ## Character classes -/

theorem isDigit_iff_toNat {c : Char} : c.isDigit = true ↔ 48 ≤ c.toNat ∧ c.toNat ≤ 57 :=
  Char.isDigit_iff_toNat

theorem isUpper_iff_toNat {c : Char} : c.isUpper = true ↔ 65 ≤ c.toNat ∧ c.toNat ≤ 90 := by
  change decide (c.val ≥ 65 ∧ c.val ≤ 90) = true ↔ _
  simp only [decide_eq_true_eq, ge_iff_le, UInt32.le_iff_toNat_le]
  exact Iff.rfl

theorem isLower_iff_toNat {c : Char} : c.isLower = true ↔ 97 ≤ c.toNat ∧ c.toNat ≤ 122 := by
  change (decide (c.val ≥ 97) && decide (c.val ≤ 122)) = true ↔ _
  simp only [Bool.and_eq_true, decide_eq_true_eq, ge_iff_le, UInt32.le_iff_toNat_le]
  exact Iff.rfl

theorem isAlpha_iff_toNat {c : Char} :
    c.isAlpha = true ↔
      (65 ≤ c.toNat ∧ c.toNat ≤ 90) ∨ (97 ≤ c.toNat ∧ c.toNat ≤ 122) := by
  change (c.isUpper || c.isLower) = true ↔ _
  rw [Bool.or_eq_true, isUpper_iff_toNat, isLower_iff_toNat]

theorem isDigit_eq_false_of_isAlpha {c : Char} (h : c.isAlpha = true) : c.isDigit = false := by
  rw [isAlpha_iff_toNat] at h
  rw [Bool.eq_false_iff, ne_eq, isDigit_iff_toNat]
  omega

theorem isBlank_eq_false_of_isAlphanum {c : Char} (h : c.isAlphanum = true) :
    Text.isBlank c = false := by
  rw [Char.isAlphanum, Bool.or_eq_true, isAlpha_iff_toNat, isDigit_iff_toNat] at h
  simp only [Text.isBlank, Text.blankRanges, List.any_cons, List.any_nil, Bool.or_false,
    Bool.or_eq_false_iff, Bool.and_eq_false_iff, decide_eq_false_iff_not]
  omega

theorem isAlphanum_of_isDigit {c : Char} (h : c.isDigit = true) : c.isAlphanum = true := by
  simp [Char.isAlphanum, h]

theorem isAlphanum_of_isAlpha {c : Char} (h : c.isAlpha = true) : c.isAlphanum = true := by
  simp [Char.isAlphanum, h]

theorem IsName.isAlphanum {cs : List Char} (h : IsName cs) : ∀ c ∈ cs, c.isAlphanum = true := by
  cases cs with
  | nil => exact h.elim
  | cons d ds => exact List.forall_mem_cons.2 ⟨isAlphanum_of_isAlpha h.1, h.2⟩

theorem continuesOperator_iff {c : Char} :
    continuesOperator c = true ↔ IsOperatorChar c := by
  simp only [continuesOperator, isMark, IsOperatorChar, ← Text.isBlank_eq_false_iff,
    Bool.and_eq_true, Bool.not_eq_true', Bool.or_eq_false_iff, beq_eq_false_iff_ne]
  constructor
  · intro h
    rcases h with ⟨⟨halnum, hblank⟩, ⟨hopen, hclose⟩, hcomma⟩
    exact ⟨hblank, halnum, hopen, hclose, hcomma⟩
  · intro h
    rcases h with ⟨hblank, halnum, hopen, hclose, hcomma⟩
    exact ⟨⟨halnum, hblank⟩, ⟨hopen, hclose⟩, hcomma⟩

/-! ## The first character -/

/-- A character that starts a lexeme of the given kind. -/
def Starts (kind : TokenKind) (c : Char) : Prop :=
  match kind with
  | .number => c.isDigit = true ∨ c = '.'
  | .name => c.isAlpha = true
  | .operator => IsOperatorChar c ∧ c ≠ '.'
  | .opening => c = '('
  | .closing => c = ')'
  | .separator => c = ','
  | .function => False

theorem IsLexeme.exists_start {token : Token} (h : IsLexeme token) :
    ∃ c cs, token.text.toList = c :: cs ∧ Starts token.kind c := by
  rcases token with ⟨kind, text⟩
  cases kind with
  | number =>
      rcases h with ⟨hne, hchars, -⟩
      rcases List.exists_cons_of_ne_nil hne with ⟨c, cs, hcs⟩
      exact ⟨c, cs, hcs, hchars c (by simp [hcs])⟩
  | name =>
      simp only [IsLexeme] at h
      cases hcs : text.toList with
      | nil => simp [hcs, IsName] at h
      | cons c cs =>
          rw [hcs] at h
          exact ⟨c, cs, rfl, h.1⟩
  | operator =>
      simp only [IsLexeme] at h
      cases hcs : text.toList with
      | nil => simp [hcs, IsOperatorRun] at h
      | cons c cs =>
          rw [hcs] at h
          exact ⟨c, cs, rfl, h.1⟩
  | opening => exact ⟨'(', [], by rw [show text = "(" from h]; rfl, rfl⟩
  | closing => exact ⟨')', [], by rw [show text = ")" from h]; rfl, rfl⟩
  | separator => exact ⟨',', [], by rw [show text = "," from h]; rfl, rfl⟩
  | function => exact h.elim

theorem Starts.isBlank_eq_false {kind : TokenKind} {c : Char} (h : Starts kind c) :
    Text.isBlank c = false := by
  cases kind with
  | number =>
      rcases h with hdigit | rfl
      · exact isBlank_eq_false_of_isAlphanum (isAlphanum_of_isDigit hdigit)
      · decide
  | name => exact isBlank_eq_false_of_isAlphanum (isAlphanum_of_isAlpha h)
  | operator => exact Text.isBlank_eq_false_iff.2 h.1.1
  | opening => cases h; decide
  | closing => cases h; decide
  | separator => cases h; decide
  | function => exact h.elim

theorem IsLexeme.isBlank_eq_false {token : Token} (h : IsLexeme token) :
    ∀ c ∈ token.text.toList, Text.isBlank c = false := by
  rcases token with ⟨kind, text⟩
  simp only [IsLexeme] at h
  intro c hc
  cases kind with
  | number =>
      rcases h.2.1 c hc with hdigit | rfl
      · exact isBlank_eq_false_of_isAlphanum (isAlphanum_of_isDigit hdigit)
      · decide
  | name => exact isBlank_eq_false_of_isAlphanum (IsName.isAlphanum h c hc)
  | operator =>
      cases hcs : text.toList with
      | nil => simp [hcs] at hc
      | cons d ds =>
          rw [hcs] at h hc
          rcases List.mem_cons.1 hc with rfl | hc
          · exact Text.isBlank_eq_false_iff.2 h.1.1.1
          · exact Text.isBlank_eq_false_iff.2 (h.2 c hc).1
  | opening =>
      subst h
      have heq : c = '(' := List.mem_singleton.1 hc
      subst heq
      decide
  | closing =>
      subst h
      have heq : c = ')' := List.mem_singleton.1 hc
      subst heq
      decide
  | separator =>
      subst h
      have heq : c = ',' := List.mem_singleton.1 hc
      subst heq
      decide
  | function => exact h.elim

/-! ## Fusing -/

theorem IsOperatorChar.isDigit_eq_false {c : Char} (h : IsOperatorChar c) :
    c.isDigit = false := by
  have halnum := h.2.1
  rw [Char.isAlphanum, Bool.or_eq_false_iff] at halnum
  exact halnum.2

theorem not_isOperatorChar_of_isAlphanum {c : Char} (h : c.isAlphanum = true) :
    ¬ IsOperatorChar c := by
  intro hc
  have halnum := hc.2.1
  simp [h] at halnum

theorem ne_point_of_isAlphanum {c : Char} (h : c.isAlphanum = true) : c ≠ '.' := by
  intro heq
  subst heq
  exact absurd h (by decide)

theorem not_absorbs_mark {token : Token} {c : Char} (h : c = '(' ∨ c = ')' ∨ c = ',') :
    ¬ Absorbs token c := by
  have hdigit : c.isDigit = false := by
    rcases h with rfl | rfl | rfl <;> decide
  have halnum : c.isAlphanum = false := by
    rcases h with rfl | rfl | rfl <;> decide
  have hop : ¬ IsOperatorChar c := by
    rcases h with rfl | rfl | rfl <;> decide
  have hpoint : c ≠ '.' := by
    rcases h with rfl | rfl | rfl <;> decide
  rcases token with ⟨kind, text⟩
  cases kind <;> simp [Absorbs, hdigit, halnum, hop, hpoint]

/-- Lexemes fuse when the first absorbs the character that the second starts with. -/
theorem fuses_iff {left right : Token} (hright : IsLexeme right) :
    Fuses left right ↔ ∃ c, right.text.toList.head? = some c ∧ Absorbs left c := by
  rcases hright.exists_start with ⟨c, cs, htext, hstart⟩
  rcases left with ⟨leftKind, leftText⟩
  rcases right with ⟨kind, text⟩
  simp only [Fuses, Absorbs, htext, List.head?_cons, Option.some.injEq, exists_eq_left']
  cases kind with
  | number =>
      rcases hstart with hdigit | rfl
      · have halnum := isAlphanum_of_isDigit hdigit
        have hne := ne_point_of_isAlphanum halnum
        have hop := not_isOperatorChar_of_isAlphanum halnum
        cases leftKind <;> simp [hdigit, hne, hop, halnum]
      · have hdigit : Char.isDigit '.' = false := by decide
        have halnum : Char.isAlphanum '.' = false := by decide
        have hop : IsOperatorChar '.' := by decide
        cases leftKind <;> simp [hdigit, halnum, hop]
  | name =>
      have hdigit := isDigit_eq_false_of_isAlpha hstart
      have halnum := isAlphanum_of_isAlpha hstart
      have hne := ne_point_of_isAlphanum halnum
      have hop := not_isOperatorChar_of_isAlphanum halnum
      cases leftKind <;> simp [hdigit, hne, hop, halnum]
  | operator =>
      rcases hstart with ⟨hop, hne⟩
      cases leftKind <;> simp [hop.isDigit_eq_false, hne, hop, hop.2.1]
  | opening =>
      have heq : c = '(' := hstart
      have hnone : ¬ Absorbs ⟨leftKind, leftText⟩ c := not_absorbs_mark (by simp [heq])
      exact iff_of_false (by cases leftKind <;> simp) hnone
  | closing =>
      have heq : c = ')' := hstart
      have hnone : ¬ Absorbs ⟨leftKind, leftText⟩ c := not_absorbs_mark (by simp [heq])
      exact iff_of_false (by cases leftKind <;> simp) hnone
  | separator =>
      have heq : c = ',' := hstart
      have hnone : ¬ Absorbs ⟨leftKind, leftText⟩ c := not_absorbs_mark (by simp [heq])
      exact iff_of_false (by cases leftKind <;> simp) hnone
  | function => exact hstart.elim

end Token

end Formula
