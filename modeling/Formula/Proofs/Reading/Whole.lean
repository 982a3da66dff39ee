import Formula.Proofs.Reading.Completeness
import Formula.Proofs.Reading.Soundness
import Formula.Proofs.Token.Layout

/-!
# Whole texts

A text is read exactly when its tokens are one phrase of the grammar, and then it is
read as the tree of that phrase.
-/

namespace Formula

namespace Parsed

open Reading Grammar

variable {registry : Registry}

theorem ofTokens_of_layer {tokens : List Token} {tree : Expression}
    (h : Layer registry 1 tokens tree) :
    ofTokens registry tokens =
      .ok ⟨tree, .ofList (tree.variableNames.reverse.map fun name => (name, 0))⟩ := by
  have hread := layer_gives h [] endsLayer_nil
  rw [List.append_nil] at hread
  rcases hread with ⟨hshorter, hread⟩
  simp [ofTokens, hread]

theorem layer_of_ofTokens {tokens : List Token} {parsed : Parsed}
    (hlex : ∀ token ∈ tokens, token.IsLexeme) (h : ofTokens registry tokens = .ok parsed) :
    Layer registry 1 tokens parsed.root := by
  unfold ofTokens at h
  split at h
  · cases h
  · rename_i whole hwhole
    rcases operation_sound 0 tokens (by omega) hlex hwhole with ⟨taken, htaken, hlayer, -, -⟩
    split at h
    · rename_i hrest
      cases h
      rw [hrest, List.append_nil] at htaken
      subst htaken
      exact hlayer
    · split at h <;> cases h

theorem layer_of_ofText {text : String} {parsed : Parsed}
    (h : ofText registry text = .ok parsed) :
    Layer registry 1 (Token.ofText text) parsed.root :=
  layer_of_ofTokens (fun _ => Token.isLexeme_of_mem_ofText) h

theorem get?_defaults_of_ofText {text : String} {parsed : Parsed}
    (h : ofText registry text = .ok parsed) (name : String) :
    parsed.defaults.get? name = if name ∈ parsed.root.variableNames then some 0 else none := by
  have hread := ofTokens_of_layer (layer_of_ofText h)
  have hdefaults := congrArg Parsed.defaults (Except.ok.inj (h.symm.trans hread))
  rw [hdefaults, Table.get?_ofList_map]
  simp only [List.mem_reverse]

/-- A text reads as a tree exactly when the grammar derives the tree from all its tokens, and
it derives no other. All numeral tokens of a text but the lone point are numbers. -/
theorem ofText_root_iff_layer (registry : Registry) (text : String) :
    (∀ tree, (∃ parsed, ofText registry text = .ok parsed ∧ parsed.root = tree) ↔
        Layer registry 1 (Token.ofText text) tree) ∧
      (∀ tree other, Layer registry 1 (Token.ofText text) tree →
        Layer registry 1 (Token.ofText text) other → tree = other) ∧
      ∀ numeral, ⟨.number, numeral⟩ ∈ Token.ofText text → numeral ≠ "." →
        Primary registry [⟨.number, numeral⟩]
          (.number (Token.numeralValue numeral.toList)) := by
  refine ⟨?_, ?_, ?_⟩
  · intro tree
    constructor
    · intro h
      rcases h with ⟨parsed, hparsed, rfl⟩
      exact layer_of_ofText hparsed
    · intro h
      exact ⟨_, ofTokens_of_layer h, rfl⟩
  · intro tree other h h'
    have hsame := (ofTokens_of_layer h).symm.trans (ofTokens_of_layer h')
    exact congrArg Parsed.root (Except.ok.inj hsame)
  · intro numeral hmem hpoint
    exact .number (Token.isLexeme_of_mem_ofText hmem) hpoint

end Parsed

end Formula
