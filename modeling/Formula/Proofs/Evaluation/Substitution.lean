import Formula.Proofs.Evaluation.Observation
import Formula.Proofs.Expression.Substitution

/-!
# Evaluation and substitution

An evaluation looks at the leaves of a tree through their outcomes alone, and at its
functions through what its calls observe of them. So a substitution whose leaves have
the outcomes of the variables they replace changes nothing, under any registry where the
functions that the tree calls act alike.
-/

namespace Formula

namespace Expression

variable {registry other : Registry} {bindings context : Table Float}

theorem mapM_substitute {leaf : String → Expression} {args : List Expression}
    (h : ∀ arg ∈ args,
      evaluate registry bindings (substitute leaf arg) = evaluate other context arg) :
    (args.map (substitute leaf)).mapM (evaluate registry bindings) =
      args.mapM (evaluate other context) := by
  induction args with
  | nil => rfl
  | cons arg args ih =>
      rw [List.map_cons, List.mapM_cons, List.mapM_cons, h arg List.mem_cons_self,
        ih fun arg hmem => h arg (List.mem_cons_of_mem _ hmem)]

/-- A call keeps its outcome when its arguments do and its callee acts alike. -/
theorem evaluate_substitute_call {leaf : String → Expression} {name : String}
    {args : List Expression} (hcallee : CalledAlike registry other name)
    (hvalues : (args.map (substitute leaf)).mapM (evaluate registry bindings) =
      args.mapM (evaluate other context)) :
    evaluate registry bindings (substitute leaf (.call name args)) =
      evaluate other context (.call name args) := by
  have hlength : (args.map (substitute leaf)).length = args.length := List.length_map _
  rw [substitute_call]
  cases harity : calleeArity? other name with
  | none =>
      rw [evaluate_call_of_unknown harity,
        evaluate_call_of_unknown (hcallee.calleeArity?_eq.trans harity)]
  | some arity =>
      by_cases hcount : args.length = arity
      · subst hcount
        rw [evaluate_call_of_arity harity, evaluate_call_of_arity
          (by rw [hcallee.calleeArity?_eq, harity, hlength]), hvalues]
        cases hargs : args.mapM (evaluate other context) with
        | error failure => rfl
        | ok values => exact hcallee.settled_applied (isFinite_of_mapM_eq_ok hargs)
      · rw [evaluate_call_of_other_arity harity hcount, evaluate_call_of_other_arity
          (hcallee.calleeArity?_eq.trans harity) (by rwa [hlength]), hlength]

/-- Leaves with the outcomes of the variables they replace keep the outcome of a tree, and so
do callees that act alike. -/
theorem evaluate_substitute_of_calledAlike {leaf : String → Expression} (tree : Expression)
    (hcalled : ∀ name args, Node (.call name args) tree → CalledAlike registry other name)
    (hleaf : ∀ name ∈ tree.variableNames,
      evaluate registry bindings (leaf name) = evaluate other context (.var name)) :
    evaluate registry bindings (substitute leaf tree) = evaluate other context tree := by
  induction tree using tree_induction with
  | number value => rw [substitute_number, evaluate, evaluate]
  | var name => exact hleaf name (by simp)
  | binary operator left right ihleft ihright =>
      simp only [variableNames_binary, List.mem_append] at hleaf
      have hleft := ihleft (fun name args hnode => hcalled name args hnode.left)
        fun name hmem => hleaf name (.inl hmem)
      have hright := ihright (fun name args hnode => hcalled name args hnode.right)
        fun name hmem => hleaf name (.inr hmem)
      rw [substitute_binary, evaluate, evaluate, hleft, hright]
  | call name args ihargs =>
      refine evaluate_substitute_call (hcalled name args .root) (mapM_substitute ?_)
      intro arg hmem
      refine ihargs arg hmem (fun name args hnode => hcalled name args (.argument hmem hnode)) ?_
      intro name hname
      rw [variableNames_call, argumentNames_eq_flatMap] at hleaf
      exact hleaf name (List.mem_flatMap_of_mem hmem hname)

theorem evaluate_substitute {leaf : String → Expression}
    (hfunctions : ∀ name, registry.function? name = other.function? name)
    (tree : Expression)
    (hleaf : ∀ name ∈ tree.variableNames,
      evaluate registry bindings (leaf name) = evaluate other context (.var name)) :
    evaluate registry bindings (substitute leaf tree) = evaluate other context tree :=
  evaluate_substitute_of_calledAlike tree
    (fun name _ _ => calledAlike_of_eq (hfunctions name)) hleaf

/-! ## One variable -/

/-- A variable bound to what an evaluation returned has that value. -/
theorem evaluate_var_insert {part : Expression} {value : Float}
    (hpart : evaluate registry bindings part = .ok value) (name : String) :
    evaluate other (context.insert name value) (.var name) = .ok value := by
  have hget : (context.insert name value).get? name = some value := by
    rw [Table.get?_insert, if_pos rfl]
  rw [evaluate, hget]
  exact settle_eq_ok_iff.2 ⟨rfl, isFinite_of_evaluate_eq_ok hpart⟩

theorem evaluate_var_insert_of_ne {leaf name : String} (h : leaf ≠ name) (value : Float) :
    evaluate registry (bindings.insert name value) (.var leaf) =
      evaluate registry bindings (.var leaf) := by
  rw [evaluate, evaluate, Table.get?_insert, if_neg h]

/-- A tree with an expression in the place of a variable has the outcome that the tree itself
has once the variable is bound to the value of the expression. The variable may be bound
before, and the expression may mention it. -/
theorem evaluate_substitute_eq_rebound (registry : Registry) (bindings : Table Float)
    (tree part : Expression) (name : String) (value : Float)
    (hpart : evaluate registry bindings part = .ok value) :
    evaluate registry bindings (substitute (replacing name part) tree) =
      evaluate registry (bindings.insert name value) tree := by
  refine evaluate_substitute (fun _ => rfl) tree fun leaf _ => ?_
  by_cases hleaf : leaf = name
  · rw [replacing, if_pos hleaf, hleaf, hpart, evaluate_var_insert hpart]
  · rw [replacing, if_neg hleaf, evaluate_var_insert_of_ne hleaf]

/-- `x + 1` in the place of an `x` that is bound to `3`, where the tree divides by zero at `4`. -/
theorem evaluate_substitute_eq_rebound_successor :
    evaluate .empty (Table.empty.insert "x" 3) (.binary .add (.var "x") (.number 1)) = .ok 4 ∧
      evaluate .empty (Table.empty.insert "x" 3)
          (substitute (replacing "x" (.binary .add (.var "x") (.number 1)))
            (.binary .divide (.var "x") (.binary .subtract (.var "x") (.number 4)))) =
        evaluate .empty ((Table.empty.insert "x" 3).insert "x" 4)
          (.binary .divide (.var "x") (.binary .subtract (.var "x") (.number 4))) := by
  have hget : (Table.empty.insert "x" (3 : Float)).get? "x" = some 3 := rfl
  have hthree : settle 3 = .ok 3 := settle_eq_ok_iff.2 ⟨rfl, by decide +kernel⟩
  have hone : settle 1 = .ok 1 := settle_eq_ok_iff.2 ⟨rfl, by decide +kernel⟩
  have hsum : settle (3 + 1) = .ok 4 :=
    settle_eq_ok_iff.2 ⟨by decide +kernel, by decide +kernel⟩
  have hpart : evaluate .empty (Table.empty.insert "x" 3)
      (.binary .add (.var "x") (.number 1)) = .ok 4 := by
    rw [evaluate, evaluate, evaluate, hget]
    dsimp only
    rw [hthree, hone]
    exact hsum
  exact ⟨hpart, evaluate_substitute_eq_rebound .empty _ _ _ "x" 4 hpart⟩

end Expression

end Formula
