import Formula.Proofs.Evaluation.Substitution

/-!
# What an evaluation depends on

An evaluation asks its bindings for the variables of its tree and its registry for the
functions that the tree calls, and it applies these to finite values only. Whatever else
the bindings and the registry hold, the outcome is the same.
-/

namespace Formula

namespace Expression

variable {registry other : Registry} {bindings context : Table Float} {tree : Expression}

theorem evaluate_congr
    (hbindings : ∀ name, Node (.var name) tree → bindings.get? name = context.get? name)
    (hcalled : ∀ name args, Node (.call name args) tree → CalledAlike registry other name) :
    evaluate registry bindings tree = evaluate other context tree := by
  have hleaf : ∀ name ∈ tree.variableNames,
      evaluate registry bindings (.var name) = evaluate other context (.var name) := by
    intro name hname
    rw [evaluate, evaluate, hbindings name (mem_variableNames_iff.1 hname)]
  have houtcome : evaluate registry bindings (substitute .var tree) =
      evaluate other context tree := evaluate_substitute_of_calledAlike tree hcalled hleaf
  rwa [substitute_var_self] at houtcome

theorem calledAlike_addFunction {first second : Function} (h : first.ActsAlike second)
    (name callee : String) :
    CalledAlike (registry.addFunction name first) (registry.addFunction name second) callee := by
  unfold CalledAlike
  rw [Registry.function?_addFunction, Registry.function?_addFunction]
  by_cases hcallee : callee = name
  · rw [if_pos hcallee, if_pos hcallee]
    exact .some h
  · rw [if_neg hcallee, if_neg hcallee]
    exact calledAlike_of_eq rfl

/-- Two evaluations of a tree have the same outcome when their bindings agree on the variables
of the tree and each name that it calls is unknown to both registries or a function of one
arity in both, with results on finite arguments that are equal, or both NaN, or both infinite.
So the constants do not matter, nor do other bindings, nor what a function makes of arguments
that are not finite. -/
theorem evaluate_depends_on_names (tree : Expression) :
    (∀ registry other bindings context,
        (∀ name, Node (.var name) tree → bindings.get? name = context.get? name) →
        (∀ name args, Node (.call name args) tree →
          Option.Rel Function.ActsAlike (registry.function? name) (other.function? name)) →
        evaluate registry bindings tree = evaluate other context tree) ∧
      ∀ registry bindings,
        (∀ constants, evaluate { registry with constants } bindings tree =
          evaluate registry bindings tree) ∧
        (∀ name value, ¬ Node (.var name) tree →
          evaluate registry (bindings.insert name value) tree =
            evaluate registry bindings tree) ∧
        ∀ name first second, Function.ActsAlike first second →
          evaluate (registry.addFunction name first) bindings tree =
            evaluate (registry.addFunction name second) bindings tree := by
  refine ⟨fun registry other bindings context => evaluate_congr, ?_⟩
  intro registry bindings
  refine ⟨?_, ?_, ?_⟩
  · intro constants
    exact evaluate_congr (fun _ _ => rfl) fun name _ _ => calledAlike_of_eq rfl
  · intro name value habsent
    refine evaluate_congr (fun leaf hleaf => ?_) fun name _ _ => calledAlike_of_eq rfl
    have hne : leaf ≠ name := fun heq => habsent (heq ▸ hleaf)
    rw [Table.get?_insert, if_neg hne]
  · intro name first second halike
    exact evaluate_congr (fun _ _ => rfl)
      fun callee _ _ => calledAlike_addFunction halike name callee

/-- A registry with one function, which leaves finite numbers as they are. -/
def capping (cap : Float) : Registry :=
  Registry.empty.addFunction "cap" (.unary fun x => if x.isInf then cap else x)

/-- The caps are never asked for, and the constant is not the variable of its name. -/
theorem evaluate_depends_on_names_capping :
    evaluate (capping 0) ((Table.empty.insert "x" 3).insert "y" 1)
        (.call "!" [.call "cap" [.var "x"]]) =
      evaluate ((capping 1).addConstant "x" 5) (Table.empty.insert "x" 3)
        (.call "!" [.call "cap" [.var "x"]]) := by
  refine (evaluate_depends_on_names _).1 _ _ _ _ ?_ ?_
  · intro name hnode
    rw [← mem_variableNames_iff] at hnode
    have hname : name = "x" := by simpa using hnode
    subst hname
    rfl
  · intro name args _
    refine calledAlike_addFunction (.unary fun a ha => ?_) "cap" name
    rw [ha.2]
    exact .refl a

end Expression

end Formula
