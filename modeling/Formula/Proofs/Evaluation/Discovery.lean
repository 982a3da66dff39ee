import Formula.Proofs.Evaluation.Faults
import Formula.Proofs.Expression.Substitution
import Formula.Proofs.Reading.Shape
import Formula.Proofs.Reading.Whole

/-!
# Discovery of variables

The variables that reading finds in a text are the leaves of its tree, no more and no
fewer. So they are what an evaluation asks of its bindings: with all of them bound it
lacks none, and where it has a value each of them is bound to a finite one.
-/

namespace Formula

namespace Expression

variable {registry : Registry} {bindings : Table Float} {tree : Expression}

theorem code_ne_unboundVariable
    (hbound : ∀ name, Node (.var name) tree → (bindings.get? name).isSome = true)
    {failure : Failure} (h : evaluate registry bindings tree = .error failure) :
    failure.code ≠ .unboundVariable := by
  intro hcode
  rcases exists_fault_of_evaluate_eq_error h with ⟨node, hnode, hfault⟩
  rcases hfault.of_unboundVariable hcode with ⟨name, rfl, hunbound⟩
  have hsome := hbound name hnode
  rw [hunbound] at hsome
  cases hsome

theorem bound_of_evaluate_eq_ok {value : Float}
    (h : evaluate registry bindings tree = .ok value) {name : String}
    (hnode : Node (.var name) tree) :
    ∃ bound, bindings.get? name = some bound ∧ IsFinite bound := by
  rcases hnode.exists_value h with ⟨bound, hvalue⟩
  exact ⟨bound, evaluate_var_eq_ok hvalue⟩

end Expression

open Expression Grammar

namespace Parsed

variable {registry : Registry} {text : String} {parsed : Parsed}

theorem get?_defaults_eq_some_iff (h : ofText registry text = .ok parsed) {name : String}
    {value : Float} :
    parsed.defaults.get? name = some value ↔ Node (.var name) parsed.root ∧ value = 0 := by
  rw [get?_defaults_of_ofText h, ← mem_variableNames_iff]
  by_cases hmem : name ∈ parsed.root.variableNames <;> simp [hmem, eq_comm]

theorem constant?_of_var_node (h : ofText registry text = .ok parsed) {name : String}
    (hnode : Node (.var name) parsed.root) : registry.constant? name = none := by
  cases layer_nodes (layer_of_ofText h) (fun _ => Token.isLexeme_of_mem_ofText) _ hnode with
  | var unknown => exact unknown

/-- The variables found in a text are the names of the variable leaves of its tree, each at
zero, and none is a constant. With all of them bound no evaluation lacks a variable, and where
an evaluation succeeds each of them is bound to a finite value. -/
theorem ofText_discovery (h : ofText registry text = .ok parsed) :
    (∀ name value, parsed.defaults.get? name = some value ↔
        Node (.var name) parsed.root ∧ value = 0) ∧
      (∀ name, Node (.var name) parsed.root → registry.constant? name = none) ∧
      ∀ other bindings,
        ((∀ name, Node (.var name) parsed.root → (bindings.get? name).isSome = true) →
          ∀ failure, evaluate other bindings parsed.root = .error failure →
            failure.code ≠ .unboundVariable) ∧
        ∀ value, evaluate other bindings parsed.root = .ok value →
          ∀ name, Node (.var name) parsed.root →
            ∃ bound, bindings.get? name = some bound ∧ IsFinite bound := by
  refine ⟨fun name value => get?_defaults_eq_some_iff h,
    fun name hnode => constant?_of_var_node h hnode, ?_⟩
  intro other bindings
  constructor
  · intro hbound failure hfailure
    exact code_ne_unboundVariable hbound hfailure
  · intro value hvalue name hnode
    exact bound_of_evaluate_eq_ok hvalue hnode

/-- A registry where one name is a function and another a constant. -/
def naming : Registry :=
  (Registry.empty.addFunction "f" (.unary fun x => x)).addConstant "k" 2

/-- The name of a function is a variable where it is not called. -/
theorem ofText_discovery_naming :
    ∃ parsed, ofText naming "f(f) - k" = .ok parsed ∧
      parsed.defaults.get? "f" = some 0 ∧ parsed.defaults.get? "k" = none ∧
      ∀ other bindings value, evaluate other bindings parsed.root = .ok value →
        ∃ bound, bindings.get? "f" = some bound ∧ IsFinite bound := by
  have htokens : Token.ofText "f(f) - k" =
      (⟨.name, "f"⟩ :: Token.openingMark :: ([⟨.name, "f"⟩] ++ [Token.closingMark])) ++
        Token.ofOperator .subtract :: [⟨.name, "k"⟩] := by decide +kernel
  have hargument : Layer naming 1 [⟨.name, "f"⟩] (.var "f") :=
    Layer.weaken (.factor (.plain (.var rfl))) (by decide)
  have hcall : Layer naming Operator.subtract.layer _ (.call "f" [.var "f"]) :=
    Layer.weaken (.factor (.plain (.call rfl (.last hargument)))) (by decide)
  have hconstant : Layer naming (Operator.subtract.layer + 1) [⟨.name, "k"⟩]
      (.number 2) :=
    Layer.weaken (.factor (.plain (.constant rfl))) (by decide)
  have hread := ofTokens_of_layer (.join hcall hconstant)
  rw [← htokens] at hread
  rcases ofText_discovery hread with ⟨hdefaults, hconstants, hevaluations⟩
  have hnode : Node (.var "f")
      (.binary .subtract (.call "f" [.var "f"]) (.number 2)) :=
    .left (.argument List.mem_cons_self .root)
  refine ⟨_, hread, (hdefaults "f" 0).2 ⟨hnode, rfl⟩, ?_, ?_⟩
  · rw [Option.eq_none_iff_forall_ne_some]
    intro value hvalue
    cases hconstants "k" ((hdefaults "k" value).1 hvalue).1
  · intro other bindings value hvalue
    exact (hevaluations other bindings).2 value hvalue "f" hnode

end Parsed

end Formula
