import Formula.Proofs.Token.Joined

/-!
# Boundaries before a point

After a blank or one of the marks every text is cut into tokens afresh, so a numeral may
start with its point there. After an operator character it may not: the point joins the
operator run.
-/

namespace Formula

namespace Token

variable {before after rest : List Char} {c : Char}

/-! ## Fresh starts -/

/-- A blank or a mark, which no token goes on over. -/
def Separates (c : Char) : Prop :=
  Text.IsWhiteSpace c ∨ c = '(' ∨ c = ')' ∨ c = ','

theorem Separates.not_absorbs (h : Separates c) (token : Token) : ¬ Absorbs token c := by
  cases h with
  | inl hblank => exact not_absorbs_blank hblank
  | inr hmark => exact not_absorbs_mark hmark

theorem separates_of_not_isOperatorChar (halnum : c.isAlphanum = false)
    (h : ¬ IsOperatorChar c) : Separates c := by
  by_contra hnone
  obtain ⟨hblank, hopening, hclosing, hseparator⟩ :
      ¬ Text.IsWhiteSpace c ∧ c ≠ '(' ∧ c ≠ ')' ∧ c ≠ ',' := by
    simpa [Separates] using hnone
  exact h ⟨hblank, halnum, hopening, hclosing, hseparator⟩

/-- Such a character leaves its own tokens, whatever follows it. -/
theorem Separates.scan_cons (h : Separates c) :
    ∃ tokens, ∀ rest, scan (c :: rest) = tokens ++ scan rest := by
  obtain hblank | rfl | rfl | rfl := h
  · refine ⟨[], fun rest => ?_⟩
    rw [scan, if_pos (Text.isBlank_iff.2 hblank), List.nil_append]
  · exact ⟨[⟨.opening, "("⟩], fun rest => scan_of_first (by decide) rfl⟩
  · exact ⟨[⟨.closing, ")"⟩], fun rest => scan_of_first (by decide) rfl⟩
  · exact ⟨[⟨.separator, ","⟩], fun rest => scan_of_first (by decide) rfl⟩

theorem scan_append_of_separates (h : ∀ c ∈ before.getLast?, Separates c) (rest : List Char) :
    scan (before ++ rest) = scan before ++ scan rest := by
  have hnil : scan [] = [] := by rw [scan]
  induction before using List.reverseRecOn with
  | nil => rw [hnil, List.nil_append, List.nil_append]
  | append_singleton start c _ =>
      have hc : Separates c := h c (by simp)
      have hstop : ∀ more : List Char, ∀ d ∈ (c :: more).head?, ∀ token, ¬ Absorbs token d := by
        simpa using hc.not_absorbs
      obtain ⟨tokens, htokens⟩ := hc.scan_cons
      rw [List.append_assoc, List.singleton_append, scan_append (hstop rest),
        scan_append (hstop []), htokens, htokens, hnil, List.append_nil, List.append_assoc]

/-- A numeral with a point is one token between a fresh start and a character that is no digit. -/
theorem scan_around_numeral {whole part : List Char}
    (hbefore : ∀ c ∈ before.getLast?, Separates c) (hwhole : ∀ c ∈ whole, c.isDigit = true)
    (hpart : ∀ c ∈ part, c.isDigit = true) (hafter : ∀ c ∈ after.head?, c.isDigit = false) :
    scan (before ++ (whole ++ '.' :: part) ++ after) =
      scan before ++ ⟨.number, String.ofList (whole ++ '.' :: part)⟩ :: scan after := by
  have hlex : IsLexeme ⟨.number, String.ofList (whole ++ '.' :: part)⟩ := by
    simpa [IsLexeme] using isNumeral_point hwhole hpart
  have hstop : ∀ d ∈ after.head?,
      ¬ Absorbs ⟨.number, String.ofList (whole ++ '.' :: part)⟩ d := by
    intro d hd
    simp [Absorbs, hafter d hd]
  have htoken := scan_lexeme_append hlex hstop
  rw [String.toList_ofList] at htoken
  rw [List.append_assoc, scan_append_of_separates hbefore, htoken]

/-! ## Points in operator runs -/

theorem kind_of_mem_isOperatorChar {token : Token} (h : IsLexeme token)
    (hc : IsOperatorChar c) (hpoint : c ≠ '.') (hmem : c ∈ token.text.toList) :
    token.kind = .operator := by
  obtain ⟨kind, text⟩ := token
  cases kind with
  | operator => rfl
  | number =>
      obtain hdigit | rfl := h.2.1 c hmem
      · exact absurd hc (not_isOperatorChar_of_isAlphanum (isAlphanum_of_isDigit hdigit))
      · exact absurd rfl hpoint
  | name =>
      have halnum := IsName.isAlphanum h c hmem
      exact absurd hc (not_isOperatorChar_of_isAlphanum halnum)
  | opening =>
      cases h
      obtain rfl : c = '(' := List.mem_singleton.1 hmem
      exact absurd hc (by decide)
  | closing =>
      cases h
      obtain rfl : c = ')' := List.mem_singleton.1 hmem
      exact absurd hc (by decide)
  | separator =>
      cases h
      obtain rfl : c = ',' := List.mem_singleton.1 hmem
      exact absurd hc (by decide)
  | function => exact h.elim

/-- A point right after another operator character belongs to an operator token. -/
theorem exists_operator_of_point {text : List Char} (hc : IsOperatorChar c) (hpoint : c ≠ '.')
    (htext : text = before ++ c :: '.' :: after) :
    ∃ token ∈ scan text, token.kind = .operator ∧ '.' ∈ token.text.toList := by
  induction text using scan.induct generalizing before with
  | case1 => simp at htext
  | case2 d cs hblank ih =>
      rw [scan, if_pos hblank]
      cases before with
      | nil =>
          obtain rfl : d = c := (List.cons.inj htext).1
          exact absurd (Text.isBlank_iff.1 hblank) hc.1
      | cons e before => exact ih (List.cons.inj htext).2
  | case3 d cs hblank ih =>
      obtain ⟨hlex, hjoin, hstop⟩ := first_spec (by simpa using hblank) cs
      rw [scan, if_neg hblank]
      rw [← hjoin] at htext
      obtain ⟨skipped, -, hrest⟩ | ⟨taken, htaken, hrest⟩ := List.append_eq_append_iff.1 htext
      · obtain ⟨token, hmem, htoken⟩ := ih hrest
        exact ⟨token, List.mem_cons_of_mem _ hmem, htoken⟩
      · cases taken with
        | nil =>
            have hnext : (first d cs).2 = [] ++ c :: '.' :: after := hrest.symm
            obtain ⟨token, hmem, htoken⟩ := ih hnext
            exact ⟨token, List.mem_cons_of_mem _ hmem, htoken⟩
        | cons e taken =>
            -- the first token holds the character, so it is a run and takes the point too
            obtain ⟨rfl, hnext⟩ := List.cons.inj hrest
            have hkind := kind_of_mem_isOperatorChar hlex hc hpoint (by simp [htaken])
            refine ⟨_, List.mem_cons_self, hkind, ?_⟩
            cases taken with
            | nil =>
                have habsorbs : Absorbs (first d cs).1 '.' := by
                  have hrun : IsOperatorChar '.' := by decide
                  simpa [Absorbs, hkind] using hrun
                have hhead : (first d cs).2.head? = some '.' := congrArg List.head? hnext.symm
                exact absurd habsorbs (hstop '.' hhead)
            | cons f taken =>
                obtain ⟨rfl, -⟩ := List.cons.inj hnext
                simp [htaken]

end Token

end Formula
