import Formula.Proofs.Reading.Shape
import Formula.Proofs.Reading.Whole
import Formula.Proofs.Writing

/-!
# What is written is read back

The tokens of a writing are a phrase of the grammar for its tree, and the scanner
finds these tokens in its text. Conversely the trees that are read have the shape of
writings around factorial marks and negations.
-/

namespace Formula

namespace Registry

theorem one_le_of_arity? {registry : Registry} {name : String} {arity : Nat}
    (h : registry.arity? name = some arity) : 1 ≤ arity := by
  rcases Option.map_eq_some_iff.1 h with ⟨function, -, rfl⟩
  exact function.one_le_arity

end Registry

namespace Writing

open Grammar

variable {registry : Registry}

theorem isNumeral_ne_point {text : String} (h : ∃ c ∈ text.toList, c.isDigit = true) :
    text ≠ "." := by
  intro heq
  subst heq
  rcases h with ⟨c, hc, hdigit⟩
  have heq : c = '.' := by simpa using hc
  subst heq
  exact absurd hdigit (by decide)

theorem one_le_strength (writing : Writing) : 1 ≤ writing.strength := by
  cases writing with
  | binary operator left right => exact operator.one_le_layer
  | _ => exact Nat.le_of_ble_eq_true rfl

theorem length_trees (args : List Writing) : (trees args).length = args.length := by
  induction args with
  | nil => rfl
  | cons arg args ih => simp [trees, ih]

/-- The phrases of the grammar that a writing makes. -/
structure Phrases (registry : Registry) (writing : Writing) : Prop where
  primary : writing.IsPrimary → Primary registry writing.tokens writing.tree
  factor : writing.isOperation = false → Factor registry writing.tokens writing.tree
  layer : Layer registry writing.strength writing.tokens writing.tree

namespace Phrases

variable {writing : Writing}

theorem of_factor (h : Factor registry writing.tokens writing.tree)
    (primary : ¬ writing.IsPrimary) (strength : writing.strength = 4) :
    Phrases registry writing :=
  ⟨fun hprimary => (primary hprimary).elim, fun _ => h, strength ▸ .factor h⟩

theorem of_primary (h : Primary registry writing.tokens writing.tree)
    (strength : writing.strength = 4) : Phrases registry writing :=
  ⟨fun _ => h, fun _ => .plain h, strength ▸ .factor (.plain h)⟩

theorem sum (h : Phrases registry writing) : Layer registry 1 writing.tokens writing.tree :=
  h.layer.weaken writing.one_le_strength

theorem grouped_factor (h : Phrases registry writing) :
    Factor registry (grouped writing.isOperation writing.tokens) writing.tree := by
  cases hoperation : writing.isOperation with
  | false => exact h.factor hoperation
  | true => exact .group h.sum

/-- With parentheses where it is too weak, a writing belongs to any layer. -/
theorem grouped_layer (h : Phrases registry writing) {strength : Nat} (hle : strength ≤ 4)
    {needed : Bool} (hneeded : needed = false → strength ≤ writing.strength) :
    Layer registry strength (grouped needed writing.tokens) writing.tree := by
  cases needed with
  | false => exact h.layer.weaken (hneeded rfl)
  | true => exact (Layer.factor (.group h.sum)).weaken hle

end Phrases

theorem arguments_of_layers {args : List Writing} (hne : args ≠ [])
    (h : ∀ arg ∈ args, Layer registry 1 arg.tokens arg.tree) :
    Arguments registry (argumentTokens args) (trees args) := by
  induction args with
  | nil => exact (hne rfl).elim
  | cons arg args ih =>
      cases args with
      | nil => exact .last (h arg (by simp))
      | cons next args =>
          exact .more (h arg (by simp)) (ih (by simp) fun other hother =>
            h other (List.mem_cons_of_mem arg hother))

theorem phrases_of_valid {writing : Writing} (h : Valid registry writing) :
    Phrases registry writing := by
  induction h with
  | numeral language digit => exact .of_primary (.number language (isNumeral_ne_point digit)) rfl
  | identifier language unknown => exact .of_primary (.var unknown) rfl
  | @binary operator left right _ _ first second =>
      have hthree := operator.layer_le_three
      have hleft : Layer registry operator.layer
          (grouped (left.strength < operator.layer) left.tokens) left.tree :=
        first.grouped_layer (by omega) fun h => Nat.le_of_not_lt (of_decide_eq_false h)
      have hright : Layer registry (operator.layer + 1)
          (grouped (right.strength ≤ operator.layer) right.tokens) right.tree :=
        second.grouped_layer (by omega) fun h => Nat.lt_of_not_le (of_decide_eq_false h)
      exact ⟨fun hprimary => hprimary.elim, fun hoperation => Bool.noConfusion hoperation,
        .join hleft hright⟩
  | negative negates _ inner => exact .of_factor (.negative negates inner.grouped_factor) id rfl
  | @call name args language arity _ valid =>
      have hne : args ≠ [] := by
        intro heq
        subst heq
        exact absurd (Registry.one_le_of_arity? arity) (by simp)
      have hargs := arguments_of_layers hne fun arg harg => (valid arg harg).sum
      rw [← length_trees] at arity
      exact .of_primary (.call arity hargs) rfl
  | factorial primary _ inner => exact .of_factor (.factorial (inner.primary primary)) id rfl

/-! ## Texts -/

theorem isLexeme_grouped {needed : Bool} {tokens : List Token}
    (h : ∀ token ∈ tokens, token.IsLexeme) :
    ∀ token ∈ grouped needed tokens, token.IsLexeme := by
  cases needed with
  | false => exact h
  | true =>
      simp only [grouped, if_true, List.mem_cons, List.mem_append, List.not_mem_nil, or_false]
      intro token hmem
      rcases hmem with rfl | htoken | rfl
      · rfl
      · exact h token htoken
      · rfl

theorem isLexeme_argumentTokens {args : List Writing}
    (h : ∀ arg ∈ args, ∀ token ∈ arg.tokens, token.IsLexeme) :
    ∀ token ∈ argumentTokens args, token.IsLexeme := by
  induction args with
  | nil => simp [argumentTokens]
  | cons arg args ih =>
      cases args with
      | nil => exact h arg (by simp)
      | cons next args =>
          simp only [argumentTokens, List.mem_append, List.mem_cons]
          intro token hmem
          rcases hmem with htoken | rfl | htoken
          · exact h arg (by simp) token htoken
          · rfl
          · exact ih (fun other hother => h other (List.mem_cons_of_mem arg hother)) token htoken

theorem isLexeme_of_valid {writing : Writing} (h : Valid registry writing) :
    ∀ token ∈ writing.tokens, token.IsLexeme := by
  induction h with
  | numeral language digit =>
      simp only [tokens, List.mem_singleton]
      intro token heq
      subst heq
      exact language
  | identifier language unknown =>
      simp only [tokens, List.mem_singleton]
      intro token heq
      subst heq
      exact language
  | @binary operator left right _ _ first second =>
      simp only [tokens, List.mem_append, List.mem_cons]
      intro token hmem
      rcases hmem with htoken | rfl | htoken
      · exact isLexeme_grouped first token htoken
      · exact Token.isLexeme_ofOperator operator
      · exact isLexeme_grouped second token htoken
  | negative negates _ inner =>
      simp only [tokens, List.mem_cons]
      intro token hmem
      rcases hmem with rfl | htoken
      · exact Token.isLexeme_ofOperator .subtract
      · exact isLexeme_grouped inner token htoken
  | @call name args language arity _ valid =>
      simp only [tokens, List.mem_cons, List.mem_append, List.not_mem_nil, or_false]
      intro token hmem
      rcases hmem with rfl | rfl | htoken | rfl
      · exact language
      · rfl
      · exact isLexeme_argumentTokens valid token htoken
      · rfl
  | factorial primary _ inner =>
      simp only [tokens, List.mem_append, List.mem_singleton]
      intro token hmem
      rcases hmem with htoken | rfl
      · exact inner token htoken
      · exact ⟨by decide, by simp⟩

theorem ofText_spaced {tokens : List Token} (h : ∀ token ∈ tokens, token.IsLexeme) :
    Token.ofText (" ".intercalate (tokens.map Token.text)) = tokens := by
  rw [Token.ofText, Token.scan_eq_iff_isLayout]
  have hnil : Token.IsLayout [] [] := Token.scan_eq_iff_isLayout.1 (by rw [Token.scan])
  induction tokens with
  | nil => simpa using hnil
  | cons token tokens ih =>
      have hlex := h token (by simp)
      cases tokens with
      | nil => simpa using hnil.cons hlex (by simp)
      | cons next tokens =>
          have hrest := ih fun other hother => h other (List.mem_cons_of_mem token hother)
          have hspaced := (hrest.blank_cons (c := ' ') (by decide)).cons hlex (by
            rintro d hd habsorbs
            have heq : ' ' = d := by simpa using hd
            subst heq
            exact absurd habsorbs.isBlank_eq_false (by decide))
          simpa using hspaced

theorem ofText_text {writing : Writing} (h : Valid registry writing) :
    ∃ defaults, Parsed.ofText registry writing.text = .ok ⟨writing.tree, defaults⟩ := by
  have htokens : Token.ofText writing.text = writing.tokens :=
    ofText_spaced (isLexeme_of_valid h)
  have hread := Parsed.ofTokens_of_layer (phrases_of_valid h).sum
  exact ⟨_, (congrArg (Parsed.ofTokens registry) htokens).trans hread⟩

/-! ## Both directions -/

theorem isMarkable_ne_reserved {arg : Expression} (h : IsMarkable arg) :
    (∃ value, arg = .number value) ∨ (∃ name, arg = .var name) ∨
      ∃ name args, arg = .call name args ∧ name ≠ Token.factorialMark ∧
        name ≠ Token.minusMark := by
  rcases h with hnumber | hvar | ⟨name, args, harg, hname⟩
  · exact .inl hnumber
  · exact .inr (.inl hvar)
  · refine .inr (.inr ⟨name, args, harg, ?_, ?_⟩)
    · intro heq
      subst heq
      exact not_isName_factorialMark hname
    · intro heq
      subst heq
      exact not_isName_minusMark hname

/-- Every writing that is valid under the registry is read back as its tree. In every tree
that is read, a factorial has one argument, a number, a variable or a call of another name
than the two reserved ones, and a negation has one argument. -/
theorem ofText_writing (registry : Registry) :
    (∀ writing, Valid registry writing →
        ∃ defaults, Parsed.ofText registry writing.text = .ok ⟨writing.tree, defaults⟩) ∧
      ∀ text parsed, Parsed.ofText registry text = .ok parsed →
        ∀ name args, Expression.Node (.call name args) parsed.root →
          (name = Token.factorialMark → ∃ arg, args = [arg] ∧
            ((∃ value, arg = .number value) ∨ (∃ leaf, arg = .var leaf) ∨
              ∃ callee inner, arg = .call callee inner ∧ callee ≠ Token.factorialMark ∧
                callee ≠ Token.minusMark)) ∧
          (name = Token.minusMark → ∃ arg, args = [arg]) := by
  constructor
  · intro writing h
    exact ofText_text h
  · intro text parsed hparsed name args hnode
    have hform := layer_nodes (Parsed.layer_of_ofText hparsed)
      (fun _ => Token.isLexeme_of_mem_ofText) _ hnode
    constructor
    · intro heq
      subst heq
      rcases hform.factorial_args with ⟨arg, hargs, hmarkable⟩
      exact ⟨arg, hargs, isMarkable_ne_reserved hmarkable⟩
    · intro heq
      subst heq
      exact hform.negative_args.2

/-- The writing `( x - 2. ) * - ( x ^ x ! )`. -/
def nestedWriting : Writing :=
  .binary .multiply (.binary .subtract (.identifier "x") (.numeral "2."))
    (.negative (.binary .power (.identifier "x") (.factorial (.identifier "x"))))

theorem valid_nestedWriting : Valid .empty nestedWriting := by
  have hx : Valid .empty (.identifier "x") := .identifier ⟨by decide, by simp⟩ rfl
  have htwo : Valid .empty (.numeral "2.") :=
    .numeral ⟨by decide, by simp, by decide⟩ ⟨'2', by simp, by decide⟩
  exact .binary (.binary hx htwo)
    (.negative (.inl rfl) (.binary hx (.factorial trivial hx)))

theorem ofText_nestedWriting :
    ∃ defaults, Parsed.ofText .empty nestedWriting.text = .ok ⟨nestedWriting.tree, defaults⟩ :=
  (ofText_writing .empty).1 nestedWriting valid_nestedWriting

end Writing

end Formula
