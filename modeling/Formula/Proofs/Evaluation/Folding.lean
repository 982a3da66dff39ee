import Formula.Proofs.Evaluation.Substitution
import Formula.Proofs.Reading.Alike

/-!
# Folding constants

Reading replaces the constants of a registry by their values. Without the constants the
same text is read into the same tree up to these leaves, and a leaf that was folded has
the outcome of a variable that is bound to the constant.
-/

namespace Formula

open Reading Expression

variable {registry other : Registry} {leaves : String → Expression}

theorem Parsed.ofTokens_alike {tokens : List Token}
    (h : Alike registry other leaves (Token.openingMark :: tokens)) :
    (∃ failure, ofTokens registry tokens = .error failure ∧
        ofTokens other tokens = .error failure) ∨
      ∃ first second, ofTokens registry tokens = .ok first ∧
        ofTokens other tokens = .ok second ∧ first.root = substitute leaves second.root := by
  have hread := operation_alike (.opening _) 0 tokens h
  simp only [ofTokens, hread]
  cases operation other 0 tokens with
  | error failure => exact .inl ⟨failure, rfl, rfl⟩
  | ok whole =>
      rcases whole with ⟨value, names, rest, shorter⟩
      cases rest with
      | nil => exact .inr ⟨_, _, rfl, rfl, rfl⟩
      | cons token rest =>
          simp only [Except.map, follow]
          split
          · exact .inl ⟨_, rfl, rfl⟩
          · exact .inl ⟨_, rfl, rfl⟩

theorem leaf_withoutConstants (registry : Registry) (name : String) :
    leaf registry.withoutConstants name = .var name := by
  rw [leaf, registry.constant?_withoutConstants]

theorem alike_withoutConstants (registry : Registry) (tokens : List Token) :
    Alike registry registry.withoutConstants (leaf registry) tokens where
  called _ _ _ _ := rfl
  uncalled name _ _ _ := by rw [leaf_withoutConstants, substitute_var]
  negated _ _ _ := rfl

theorem evaluate_leaf (registry : Registry) (bindings : Table Float) (name : String) :
    evaluate registry bindings (leaf registry name) =
      evaluate registry.withoutConstants
        (bindings.insertAll registry.constants.entries) (.var name) := by
  have hget : (bindings.insertAll registry.constants.entries).get? name =
      (registry.constant? name).or (bindings.get? name) :=
    Table.get?_insertAll bindings registry.constants name
  rw [leaf, evaluate, hget]
  cases registry.constant? name with
  | some value => rw [evaluate, Option.some_or]
  | none => rw [evaluate, Option.none_or]

/-- A text is refused with the same failure with and without the constants of a registry, or
it is read both times, and the folded tree has the outcome that the other one has under the
bindings overridden by the constants. -/
theorem Parsed.ofText_withoutConstants (registry : Registry) (text : String)
    (bindings : Table Float) :
    (∃ failure, ofText registry text = .error failure ∧
        ofText registry.withoutConstants text = .error failure) ∨
      ∃ folded unfolded, ofText registry text = .ok folded ∧
        ofText registry.withoutConstants text = .ok unfolded ∧
        folded.root.evaluate registry bindings =
          unfolded.root.evaluate registry.withoutConstants
            (bindings.insertAll registry.constants.entries) := by
  rcases ofTokens_alike (alike_withoutConstants registry _) with
    hfailure | ⟨folded, unfolded, hfolded, hunfolded, hroot⟩
  · exact .inl hfailure
  · refine .inr ⟨folded, unfolded, hfolded, hunfolded, ?_⟩
    rw [hroot]
    exact evaluate_substitute (fun name => (registry.function?_withoutConstants name).symm)
      unfolded.root fun name _ => evaluate_leaf registry bindings name

end Formula
