import Formula.Proofs.Token.Layout

/-!
# Joined texts

No token goes on over a blank or over one of the marks, so a text is cut into the same
tokens whether or not such a character and more text follow it.
-/

namespace Formula

namespace Token

theorem not_absorbs_blank {token : Token} {c : Char} (h : Text.IsWhiteSpace c) :
    ¬ Absorbs token c :=
  fun habsorbs => Text.isBlank_eq_false_iff.1 habsorbs.isBlank_eq_false h

theorem scan_append {text rest : List Char}
    (hrest : ∀ c ∈ rest.head?, ∀ token, ¬ Absorbs token c) :
    scan (text ++ rest) = scan text ++ scan rest := by
  induction text using scan.induct with
  | case1 => rw [scan, List.nil_append, List.nil_append]
  | case2 c cs hblank ih => rw [List.cons_append, scan, if_pos hblank, ih, scan, if_pos hblank]
  | case3 c cs hblank ih =>
      have hblank : Text.isBlank c = false := by simpa using hblank
      obtain ⟨hlex, hjoin, hstop⟩ := first_spec hblank cs
      obtain ⟨d, ds, htext, -⟩ := hlex.exists_start
      rw [htext, List.cons_append] at hjoin
      obtain ⟨rfl, hds⟩ := List.cons.inj hjoin
      have hnext : ∀ e ∈ ((first d cs).2 ++ rest).head?, ¬ Absorbs (first d cs).1 e := by
        cases hleft : (first d cs).2 with
        | nil => exact fun e he => hrest e he _
        | cons e es => simpa [hleft] using hstop
      have hfirst : first d (cs ++ rest) = ((first d cs).1, (first d cs).2 ++ rest) := by
        rw [← first_eq_of_isLexeme hlex htext hnext, ← List.append_assoc, hds]
      have hscan : scan (d :: cs) = (first d cs).1 :: scan (first d cs).2 :=
        scan_of_first hblank rfl
      rw [List.cons_append, scan_of_first hblank hfirst, ih, hscan, List.cons_append]

theorem scan_lexeme_append {token : Token} {rest : List Char} (h : IsLexeme token)
    (hrest : ∀ d ∈ rest.head?, ¬ Absorbs token d) :
    scan (token.text.toList ++ rest) = token :: scan rest := by
  obtain ⟨c, cs, htext, hstart⟩ := h.exists_start
  have hfirst := first_eq_of_isLexeme h htext hrest
  rw [htext, List.cons_append, scan_of_first hstart.isBlank_eq_false hfirst]

theorem scan_isLexeme {token : Token} (h : IsLexeme token) :
    scan token.text.toList = [token] := by
  have happend : scan (token.text.toList ++ []) = token :: scan [] :=
    scan_lexeme_append h (by simp)
  rw [List.append_nil, scan] at happend
  exact happend

theorem scan_around_mark {c : Char} {token : Token} (hmark : c = '(' ∨ c = ')' ∨ c = ',')
    (hfirst : ∀ cs, first c cs = (token, cs)) (before after : List Char) :
    scan (before ++ c :: after) = scan before ++ token :: scan after := by
  have hblank : Text.isBlank c = false := by
    rcases hmark with rfl | rfl | rfl <;> decide
  have hstop : ∀ d ∈ (c :: after).head?, ∀ token, ¬ Absorbs token d := by
    simpa using fun token => not_absorbs_mark hmark
  rw [scan_append hstop, scan_of_first hblank (hfirst after)]

/-! ## Texts on both sides of a blank or a mark -/

theorem ofText_empty : ofText "" = [] := by
  rw [ofText, String.toList_empty, scan]

theorem ofText_of_isLexeme {token : Token} (h : IsLexeme token) : ofText token.text = [token] :=
  scan_isLexeme h

theorem ofText_of_isName {name : String} (h : IsName name.toList) :
    ofText name = [⟨.name, name⟩] := by
  have hlex : IsLexeme ⟨.name, name⟩ := h
  exact ofText_of_isLexeme hlex

theorem ofText_around_blank (before after : String) :
    ofText (before ++ " " ++ after) = ofText before ++ ofText after := by
  have hstop : ∀ c ∈ (' ' :: after.toList).head?, ∀ token, ¬ Absorbs token c := by
    simpa using fun token => not_absorbs_blank (by decide)
  have htext : (before ++ " " ++ after).toList = before.toList ++ ' ' :: after.toList := by simp
  rw [ofText, htext, scan_append hstop, scan, if_pos (by decide), ofText, ofText]

theorem ofText_around_opening (before after : String) :
    ofText (before ++ "(" ++ after) = ofText before ++ ⟨.opening, "("⟩ :: ofText after := by
  have htext : (before ++ "(" ++ after).toList = before.toList ++ '(' :: after.toList := by simp
  rw [ofText, htext, scan_around_mark (.inl rfl) fun _ => rfl, ofText, ofText]

theorem ofText_opening (after : String) :
    ofText ("(" ++ after) = ⟨.opening, "("⟩ :: ofText after := by
  have hbefore := ofText_around_opening "" after
  rwa [String.empty_append, ofText_empty, List.nil_append] at hbefore

theorem ofText_around_closing (before after : String) :
    ofText (before ++ ")" ++ after) = ofText before ++ ⟨.closing, ")"⟩ :: ofText after := by
  have htext : (before ++ ")" ++ after).toList = before.toList ++ ')' :: after.toList := by simp
  rw [ofText, htext, scan_around_mark (.inr (.inl rfl)) fun _ => rfl, ofText, ofText]

theorem ofText_closing (before : String) :
    ofText (before ++ ")") = ofText before ++ [⟨.closing, ")"⟩] := by
  have hafter := ofText_around_closing before ""
  rwa [String.append_empty, ofText_empty] at hafter

theorem ofText_around_separator (before after : String) :
    ofText (before ++ "," ++ after) = ofText before ++ ⟨.separator, ","⟩ :: ofText after := by
  have htext : (before ++ "," ++ after).toList = before.toList ++ ',' :: after.toList := by simp
  rw [ofText, htext, scan_around_mark (.inr (.inr rfl)) fun _ => rfl, ofText, ofText]

/-! ## A name and a group between two texts -/

theorem ofText_around_name {name : String} (hname : IsName name.toList)
    (before after : String) :
    ofText (before ++ " " ++ name ++ " " ++ after) =
      ofText before ++ ⟨.name, name⟩ :: ofText after := by
  rw [ofText_around_blank, ofText_around_blank, ofText_of_isName hname, List.append_assoc,
    List.singleton_append]

theorem ofText_name_opening {name : String} (hname : IsName name.toList) (after : String) :
    ofText (name ++ "(" ++ after) = ⟨.name, name⟩ :: ⟨.opening, "("⟩ :: ofText after := by
  rw [ofText_around_opening, ofText_of_isName hname, List.singleton_append]

theorem ofText_around_group (before inner after : String) :
    ofText (before ++ "(" ++ inner ++ ")" ++ after) =
      ofText before ++
        ⟨.opening, "("⟩ :: (ofText inner ++ ⟨.closing, ")"⟩ :: ofText after) := by
  rw [ofText_around_closing, ofText_around_opening, List.append_assoc, List.cons_append]

end Token

end Formula
