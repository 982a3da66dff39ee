import Formula.Proofs.Token.Numeral
import Mathlib.Data.List.Chain

/-!
# Layouts of token lists

A text is its tokens with gaps of blanks between them. The scanner finds the one way
to lay a text out so that every token is a lexeme of its kind and neighbours that
would fuse are kept apart.
-/

namespace Formula

namespace Token

/-! ## One token -/

theorem IsOperatorChar.isAlpha_eq_false {c : Char} (h : IsOperatorChar c) :
    c.isAlpha = false := by
  have halnum := h.2.1
  rw [Char.isAlphanum, Bool.or_eq_false_iff] at halnum
  exact halnum.1

theorem startsNumeral_eq_false {c : Char} (hdigit : c.isDigit = false) (hpoint : c ≠ '.') :
    startsNumeral c = false := by
  simp [startsNumeral, hdigit, hpoint]

/-- A lexeme is read off the head of a text, if what follows is not absorbed by it. -/
theorem first_eq_of_isLexeme {token : Token} {c : Char} {cs rest : List Char}
    (hlex : IsLexeme token) (htext : token.text.toList = c :: cs)
    (hrest : ∀ d ∈ rest.head?, ¬ Absorbs token d) :
    first c (cs ++ rest) = (token, rest) := by
  have hofList : String.ofList (c :: cs) = token.text := by
    rw [← htext, String.ofList_toList]
  rcases token with ⟨kind, text⟩
  simp only [IsLexeme, Absorbs] at hlex hrest hofList htext
  rw [htext] at hlex
  cases kind with
  | number =>
      rw [htext] at hrest
      have hstart : startsNumeral c = true := by
        simpa [startsNumeral] using hlex.2.1 c (by simp)
      have hsplit := splitNumeral_append hlex hrest
      simp only [first, hstart, if_true]
      rw [← List.cons_append, hsplit, hofList]
  | name =>
      have hdigit := isDigit_eq_false_of_isAlpha hlex.1
      have hpoint := ne_point_of_isAlphanum (isAlphanum_of_isAlpha hlex.1)
      have hstop : ∀ d ∈ rest.head?, d.isAlphanum = false := fun d hd => by
        simpa using hrest d hd
      simp only [first, startsNumeral_eq_false hdigit hpoint, hlex.1, if_true,
        takeWhile_append_stop hlex.2 hstop, dropWhile_append_stop hlex.2 hstop, hofList]
      rfl
  | operator =>
      rcases hlex with ⟨⟨hop, hpoint⟩, hrun⟩
      have hbody : ∀ d ∈ cs, continuesOperator d = true := fun d hd =>
        continuesOperator_iff.2 (hrun d hd)
      have hstop : ∀ d ∈ rest.head?, continuesOperator d = false := fun d hd => by
        rw [Bool.eq_false_iff, ne_eq, continuesOperator_iff]
        exact hrest d hd
      simp only [first, startsNumeral_eq_false hop.isDigit_eq_false hpoint,
        hop.isAlpha_eq_false, beq_eq_false_iff_ne.2 hop.2.2.1,
        beq_eq_false_iff_ne.2 hop.2.2.2.1, beq_eq_false_iff_ne.2 hop.2.2.2.2,
        takeWhile_append_stop hbody hstop, dropWhile_append_stop hbody hstop, hofList]
      rfl
  | opening =>
      subst hlex
      cases htext
      rfl
  | closing =>
      subst hlex
      cases htext
      rfl
  | separator =>
      subst hlex
      cases htext
      rfl
  | function => exact hlex.elim

theorem isOperatorChar_of_not_starts {c : Char} (hblank : Text.isBlank c = false)
    (hnumeral : startsNumeral c = false) (halpha : c.isAlpha = false)
    (hmarks : c ≠ '(' ∧ c ≠ ')' ∧ c ≠ ',') : IsOperatorChar c ∧ c ≠ '.' := by
  simp only [startsNumeral, Bool.or_eq_false_iff, beq_eq_false_iff_ne] at hnumeral
  exact ⟨⟨Text.isBlank_eq_false_iff.1 hblank, by simp [Char.isAlphanum, halpha, hnumeral.1],
    hmarks⟩, hnumeral.2⟩

/-- What the scanner takes is a lexeme, and it takes all that the lexeme absorbs. -/
theorem first_spec {c : Char} (hblank : Text.isBlank c = false) (cs : List Char) :
    IsLexeme (first c cs).1 ∧ (first c cs).1.text.toList ++ (first c cs).2 = c :: cs ∧
      ∀ d ∈ (first c cs).2.head?, ¬ Absorbs (first c cs).1 d := by
  unfold first
  split
  · rename_i hstart
    simpa [IsLexeme, Absorbs] using splitNumeral_spec hstart cs
  · rename_i hnumeral
    split
    · rename_i halpha
      refine ⟨?_, by simp, fun d hd => ?_⟩
      · simpa [IsLexeme, IsName, halpha] using fun d => mem_takeWhile
      · simp [Absorbs, head_dropWhile d hd]
    · rename_i halpha
      by_cases hopen : c = '('
      · subst hopen
        exact ⟨rfl, by simp, fun _ _ => id⟩
      by_cases hclose : c = ')'
      · subst hclose
        exact ⟨rfl, by simp, fun _ _ => id⟩
      by_cases hcomma : c = ','
      · subst hcomma
        exact ⟨rfl, by simp, fun _ _ => id⟩
      have hstart := isOperatorChar_of_not_starts hblank (by simpa using hnumeral)
        (by simpa using halpha) ⟨hopen, hclose, hcomma⟩
      simp only [beq_eq_false_iff_ne.2 hopen, beq_eq_false_iff_ne.2 hclose,
        beq_eq_false_iff_ne.2 hcomma, Bool.false_eq_true, if_false]
      refine ⟨?_, by simp, fun d hd => ?_⟩
      · simp only [IsLexeme, IsOperatorRun, String.toList_ofList]
        exact ⟨hstart, fun d hd => continuesOperator_iff.1 (mem_takeWhile hd)⟩
      · simp only [Absorbs, ← continuesOperator_iff, head_dropWhile d hd]
        exact Bool.false_ne_true

/-! ## Whole texts -/

/-- Tokens laid end to end, each with the gap after it. -/
def spelling (pieces : List (Token × List Char)) : List Char :=
  pieces.flatMap fun piece => piece.1.text.toList ++ piece.2

/-- Lexemes with gaps of blanks, where neighbours that would fuse are kept apart. -/
structure IsSpaced (pieces : List (Token × List Char)) : Prop where
  lexemes : ∀ piece ∈ pieces, IsLexeme piece.1
  blank : ∀ piece ∈ pieces, ∀ c ∈ piece.2, Text.IsWhiteSpace c
  apart : pieces.IsChain fun left right => left.2 = [] → ¬ Fuses left.1 right.1

/-- A text that starts with a gap and goes on with the tokens and the gaps after them. -/
def IsLayout (tokens : List Token) (text : List Char) : Prop :=
  ∃ lead pieces, (∀ c ∈ lead, Text.IsWhiteSpace c) ∧ pieces.map Prod.fst = tokens ∧
    IsSpaced pieces ∧ text = lead ++ spelling pieces

theorem scan_blank_append {gap : List Char} (hgap : ∀ c ∈ gap, Text.IsWhiteSpace c)
    (cs : List Char) : scan (gap ++ cs) = scan cs := by
  induction gap with
  | nil => rfl
  | cons c gap ih =>
      rw [List.cons_append, scan, if_pos (Text.isBlank_iff.2 (hgap c (by simp)))]
      exact ih fun d hd => hgap d (by simp [hd])

theorem scan_of_first {c : Char} {cs rest : List Char} {token : Token}
    (hblank : Text.isBlank c = false) (h : first c cs = (token, rest)) :
    scan (c :: cs) = token :: scan rest := by
  rw [scan, if_neg (by simp [hblank]), h]

theorem IsSpaced.tail {piece : Token × List Char} {pieces : List (Token × List Char)}
    (h : IsSpaced (piece :: pieces)) : IsSpaced pieces :=
  ⟨fun p hp => h.lexemes p (by simp [hp]), fun p hp => h.blank p (by simp [hp]),
    h.apart.tail⟩

theorem Absorbs.isBlank_eq_false {token : Token} {c : Char} (h : Absorbs token c) :
    Text.isBlank c = false := by
  unfold Absorbs at h
  split at h
  · rcases h with hdigit | ⟨rfl, -⟩
    · exact isBlank_eq_false_of_isAlphanum (isAlphanum_of_isDigit hdigit)
    · decide
  · exact isBlank_eq_false_of_isAlphanum h
  · exact Text.isBlank_eq_false_iff.2 h.1
  · exact h.elim

theorem IsSpaced.not_absorbs {token : Token} {gap : List Char}
    {pieces : List (Token × List Char)} (h : IsSpaced ((token, gap) :: pieces)) :
    ∀ d ∈ (gap ++ spelling pieces).head?, ¬ Absorbs token d := by
  intro d hd habsorbs
  cases gap with
  | cons c gap =>
      have heq : c = d := by simpa using hd
      subst heq
      have hblank := h.blank (token, c :: gap) (by simp) c (by simp)
      exact Text.isBlank_eq_false_iff.1 habsorbs.isBlank_eq_false hblank
  | nil =>
      cases pieces with
      | nil => simp [spelling] at hd
      | cons next pieces =>
          have hnext := h.lexemes next (by simp)
          rcases hnext.exists_start with ⟨c, cs, htext, -⟩
          have heq : c = d := by simpa [spelling, htext] using hd
          subst heq
          have hapart := (List.isChain_cons_cons.1 h.apart).1 rfl
          exact hapart ((fuses_iff hnext).2 ⟨c, by simp [htext], habsorbs⟩)

theorem scan_spelling {pieces : List (Token × List Char)} (h : IsSpaced pieces) :
    scan (spelling pieces) = pieces.map Prod.fst := by
  induction pieces with
  | nil => rw [spelling, List.flatMap_nil, scan, List.map_nil]
  | cons piece pieces ih =>
      rcases piece with ⟨token, gap⟩
      have hlex := h.lexemes (token, gap) (by simp)
      rcases hlex.exists_start with ⟨c, cs, htext, hstart⟩
      have hfirst := first_eq_of_isLexeme hlex htext h.not_absorbs
      have hspell : spelling ((token, gap) :: pieces) =
          c :: (cs ++ (gap ++ spelling pieces)) := by
        simp [spelling, htext]
      rw [hspell, scan_of_first hstart.isBlank_eq_false hfirst,
        scan_blank_append (h.blank (token, gap) (by simp)), ih h.tail]
      rfl

theorem IsLayout.cons {token : Token} {tokens : List Token} {text : List Char}
    (h : IsLayout tokens text) (hlex : IsLexeme token)
    (hrest : ∀ d ∈ text.head?, ¬ Absorbs token d) :
    IsLayout (token :: tokens) (token.text.toList ++ text) := by
  rcases h with ⟨lead, pieces, hlead, rfl, hspaced, rfl⟩
  refine ⟨[], (token, lead) :: pieces, by simp, rfl, ⟨?_, ?_, ?_⟩, by simp [spelling]⟩
  · exact List.forall_mem_cons.2 ⟨hlex, hspaced.lexemes⟩
  · exact List.forall_mem_cons.2 ⟨hlead, hspaced.blank⟩
  · cases pieces with
    | nil => exact .singleton _
    | cons next pieces =>
        refine List.isChain_cons_cons.2 ⟨?_, hspaced.apart⟩
        rintro (rfl : lead = []) hfuses
        have hnext := hspaced.lexemes next (by simp)
        rcases (fuses_iff hnext).1 hfuses with ⟨c, hc, habsorbs⟩
        rcases List.head?_eq_some_iff.1 hc with ⟨cs, hcs⟩
        exact hrest c (by simp [spelling, hcs]) habsorbs

theorem IsLayout.blank_cons {c : Char} {tokens : List Token} {text : List Char}
    (h : IsLayout tokens text) (hblank : Text.IsWhiteSpace c) :
    IsLayout tokens (c :: text) := by
  rcases h with ⟨lead, pieces, hlead, htokens, hspaced, rfl⟩
  exact ⟨c :: lead, pieces, by simpa [hblank] using hlead, htokens, hspaced, rfl⟩

theorem isLayout_scan (text : List Char) : IsLayout (scan text) text := by
  induction text using scan.induct with
  | case1 =>
      rw [scan]
      exact ⟨[], [], by simp, rfl, ⟨by simp, by simp, .nil⟩, rfl⟩
  | case2 c cs hblank ih =>
      rw [scan, if_pos hblank]
      exact ih.blank_cons (Text.isBlank_iff.1 hblank)
  | case3 c cs hblank ih =>
      rcases first_spec (by simpa using hblank) cs with ⟨hlex, hjoin, hstop⟩
      rw [scan, if_neg hblank, ← hjoin]
      exact ih.cons hlex hstop

theorem scan_eq_iff_isLayout {text : List Char} {tokens : List Token} :
    scan text = tokens ↔ IsLayout tokens text := by
  constructor
  · intro heq
    subst heq
    exact isLayout_scan text
  · intro h
    rcases h with ⟨lead, pieces, hlead, rfl, hspaced, rfl⟩
    rw [scan_blank_append hlead, scan_spelling hspaced]

/-! ## What a layout keeps -/

theorem isLexeme_of_mem_ofText {text : String} {token : Token} (h : token ∈ ofText text) :
    IsLexeme token := by
  rcases isLayout_scan text.toList with ⟨lead, pieces, -, hpieces, hspaced, -⟩
  rw [ofText, ← hpieces, List.mem_map] at h
  rcases h with ⟨piece, hpiece, rfl⟩
  exact hspaced.lexemes piece hpiece

theorem filter_spelling {pieces : List (Token × List Char)} (h : IsSpaced pieces) :
    (spelling pieces).filter (fun c => ¬ Text.IsWhiteSpace c) =
      (pieces.map Prod.fst).flatMap fun token => token.text.toList := by
  induction pieces with
  | nil => rfl
  | cons piece pieces ih =>
      have hchars := (h.lexemes piece (by simp)).isBlank_eq_false
      have hgap := h.blank piece (by simp)
      have htext : piece.1.text.toList.filter (fun c => ¬ Text.IsWhiteSpace c) =
          piece.1.text.toList :=
        List.filter_eq_self.2 fun c hc =>
          decide_eq_true (Text.isBlank_eq_false_iff.1 (hchars c hc))
      have hnone : piece.2.filter (fun c => ¬ Text.IsWhiteSpace c) = [] :=
        List.filter_eq_nil_iff.2 fun c hc => by simp [hgap c hc]
      rw [spelling] at ih
      rw [spelling, List.flatMap_cons, List.filter_append, List.filter_append, htext, hnone,
        ih h.tail, List.map_cons, List.flatMap_cons, List.append_nil]

/-- The tokens of a text are the one list that the text is a layout of. They hold every
character but the blanks, and none is taken for a function. -/
theorem ofText_eq_iff_isLayout (text : String) :
    (∀ tokens, ofText text = tokens ↔ IsLayout tokens text.toList) ∧
      ((ofText text).flatMap fun token => token.text.toList) =
        text.toList.filter (fun c => ¬ Text.IsWhiteSpace c) ∧
      ∀ token ∈ ofText text, token.kind ≠ .function := by
  refine ⟨?_, ?_, ?_⟩
  · intro tokens
    exact scan_eq_iff_isLayout
  · rcases isLayout_scan text.toList with ⟨lead, pieces, hlead, hpieces, hspaced, htext⟩
    have hnone : lead.filter (fun c => ¬ Text.IsWhiteSpace c) = [] :=
      List.filter_eq_nil_iff.2 fun c hc => by simp [hlead c hc]
    rw [ofText, ← hpieces, ← filter_spelling hspaced]
    conv_rhs => rw [htext, List.filter_append, hnone, List.nil_append]
  · intro token htoken hkind
    have hlex := isLexeme_of_mem_ofText htoken
    simp [IsLexeme, hkind] at hlex

end Token

end Formula
