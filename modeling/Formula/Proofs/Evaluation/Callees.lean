import Formula.Proofs.Evaluation.Faults
import Formula.Proofs.Reading.Refusals
import Formula.Proofs.Reading.Shape
import Formula.Proofs.Reading.Whole

/-!
# Callees of the trees that are read

A call that is written with an identifier is checked while it is read: its function takes
as many arguments as the call has. The two marks are calls of one argument each. The
name of a negation may be unregistered, and the name of a factorial is not looked up.

A tree whose callees take their arguments fails for no function, so reading and
evaluating fail for causes of their own.
-/

namespace Formula

/-- The classes of the failures of a tree whose callees take their arguments. -/
def FailureCode.ofEvaluation : List FailureCode :=
  [.unboundVariable, .divisionByZero, .notANumber, .infinite, .malformed]

namespace Grammar

variable {registry : Registry}

/-- Whether the factorial mark calls nothing or a function of one argument. -/
def Marks (registry : Registry) : Prop :=
  registry.arity? Token.factorialMark = none ∨ registry.arity? Token.factorialMark = some 1

/-- A call of a derived tree is written out, or a factorial, or a negation. -/
theorem NodeForm.call_form {name : String} {args : List Expression}
    (h : NodeForm registry (.call name args)) :
    (Token.IsName name.toList ∧ registry.arity? name = some args.length) ∨
      (name = Token.factorialMark ∧ args.length = 1) ∨
        name = Token.minusMark ∧ args.length = 1 ∧ Negates registry := by
  cases h with
  | call identifier arity => exact .inl ⟨identifier, arity⟩
  | factorial => exact .inr (.inl ⟨rfl, rfl⟩)
  | negative negates => exact .inr (.inr ⟨rfl, rfl, negates⟩)

end Grammar

open Expression Grammar

/-! ## Callees that take their arguments -/

namespace Expression

variable {registry : Registry} {bindings : Table Float}

theorem calleeArity?_of_arity? {name : String} {arity : Nat}
    (h : registry.arity? name = some arity) : calleeArity? registry name = some arity := by
  rcases Option.map_eq_some_iff.1 h with ⟨function, hfunction, rfl⟩
  exact calleeArity?_of_function hfunction

theorem calleeArity?_factorialMark (h : Marks registry) :
    calleeArity? registry Token.factorialMark = some 1 := by
  rcases h with hnone | hone
  · exact calleeArity?_eq_some_iff.2 (.inr ⟨Option.map_eq_none_iff.1 hnone, rfl, rfl⟩)
  · exact calleeArity?_of_arity? hone

/-- The callee of every call in the tree takes as many arguments as the call has. -/
def Callable (registry : Registry) (tree : Expression) : Prop :=
  ∀ name args, Node (.call name args) tree → calleeArity? registry name = some args.length

theorem Callable.code_mem_ofEvaluation {tree : Expression} (h : Callable registry tree)
    {failure : Failure} (hfailure : evaluate registry bindings tree = .error failure) :
    failure.code ∈ FailureCode.ofEvaluation := by
  rcases exists_fault_of_evaluate_eq_error hfailure with ⟨node, hnode, hfault⟩
  cases hfault with
  | unknownFunction unknown => cases unknown.symm.trans (h _ _ hnode)
  | argumentCount callee other =>
      exact (other (Option.some.inj ((h _ _ hnode).symm.trans callee))).elim
  | _ => simp [Failure.code, FailureCode.ofEvaluation]

end Expression

/-! ## Under the registry of the reading -/

namespace Parsed

variable {registry : Registry} {text : String} {parsed : Parsed}

theorem call_form_of_ofText (h : ofText registry text = .ok parsed) {name : String}
    {args : List Expression} (hnode : Node (.call name args) parsed.root) :
    (Token.IsName name.toList ∧ registry.arity? name = some args.length) ∨
      (name = Token.factorialMark ∧ args.length = 1) ∨
        name = Token.minusMark ∧ args.length = 1 ∧ Negates registry :=
  (layer_nodes (layer_of_ofText h) (fun _ => Token.isLexeme_of_mem_ofText) _ hnode).call_form

theorem callee_of_ofText (h : ofText registry text = .ok parsed) {name : String}
    {args : List Expression} (hnode : Node (.call name args) parsed.root)
    (hmarks : name = Token.factorialMark → Marks registry) :
    registry.arity? name = some args.length ∨
      registry.arity? name = none ∧ args.length = 1 ∧
        (name = Token.factorialMark ∨ name = Token.minusMark) := by
  rcases call_form_of_ofText h hnode with ⟨-, harity⟩ | ⟨hname, hcount⟩ | ⟨hname, hcount, hnegates⟩
  · exact .inl harity
  · rcases hmarks hname with hnone | hone
    · exact .inr ⟨hname ▸ hnone, hcount, .inl hname⟩
    · exact .inl (by rw [hname, hcount, hone])
  · rcases hnegates with hnone | hone
    · exact .inr ⟨hname ▸ hnone, hcount, .inr hname⟩
    · refine .inl ?_
      rw [hname, hcount]
      exact hone

/-- Every call in a tree that is read takes its arguments, except that a negation may call
nothing; only a factorial mark that is a function of another arity is not asked about. So
under the same registry no evaluation fails for an unknown function but that of a negation
without its function, and none for a number of arguments but that of such a factorial. -/
theorem ofText_callees (h : ofText registry text = .ok parsed) :
    (∀ name args, Node (.call name args) parsed.root →
        (name = Token.factorialMark → Marks registry) →
          registry.arity? name = some args.length ∨
            registry.arity? name = none ∧ args.length = 1 ∧
              (name = Token.factorialMark ∨ name = Token.minusMark)) ∧
      ∀ bindings failure, evaluate registry bindings parsed.root = .error failure →
        (failure.code = .unknownFunction →
          failure = .unknownFunction Token.minusMark ∧
            registry.function? Token.minusMark = none ∧
            ∃ args, Node (.call Token.minusMark args) parsed.root) ∧
        (failure.code = .argumentCount →
          ¬ Marks registry ∧ ∃ args, Node (.call Token.factorialMark args) parsed.root) := by
  refine ⟨fun name args hnode hmarks => callee_of_ofText h hnode hmarks, ?_⟩
  intro bindings failure hfailure
  rcases exists_fault_of_evaluate_eq_error hfailure with ⟨node, hnode, hfault⟩
  constructor
  · intro hcode
    rcases hfault.of_unknownFunction hcode with ⟨name, args, rfl, rfl, hunknown⟩
    rcases calleeArity?_eq_none_iff.1 hunknown with ⟨hfunction, hname⟩
    rcases callee_of_ofText h hnode fun heq => (hname heq).elim with
      harity | ⟨-, -, heq | heq⟩
    · cases hunknown.symm.trans (calleeArity?_of_arity? harity)
    · exact (hname heq).elim
    · subst heq
      exact ⟨rfl, hfunction, args, hnode⟩
  · intro hcode
    rcases hfault.of_argumentCount hcode with ⟨name, args, arity, rfl, hcallee, hother⟩
    have hcount {given : Nat} (harity : calleeArity? registry name = some given) :
        args.length ≠ given := by
      rw [Option.some.inj (harity.symm.trans hcallee)]
      exact hother
    rcases call_form_of_ofText h hnode with
      ⟨-, harity⟩ | ⟨rfl, hone⟩ | ⟨rfl, hone, hnone | harity⟩
    · exact (hcount (calleeArity?_of_arity? harity) rfl).elim
    · refine ⟨fun hmarks => hcount (calleeArity?_factorialMark hmarks) hone, args, hnode⟩
    · have hunknown := calleeArity?_eq_none_iff.2
        ⟨Option.map_eq_none_iff.1 hnone, show Token.minusMark ≠ Token.factorialMark by decide⟩
      cases hunknown.symm.trans hcallee
    · exact (hcount (calleeArity?_of_arity? harity) hone).elim

end Parsed

/-- A registry with one function, of one argument. -/
def doubling : Registry :=
  Registry.empty.addFunction "twice" (.unary fun x => x + x)

theorem Grammar.layer_doubling :
    Layer doubling 1 (Token.ofText "-twice(x)!")
      (.call "-" [.call "!" [.call "twice" [.var "x"]]]) := by
  have htokens : Token.ofText "-twice(x)!" =
      Token.minus :: ((⟨.name, "twice"⟩ :: Token.openingMark ::
        ([⟨.name, "x"⟩] ++ [Token.closingMark])) ++ [Token.factorial]) := by decide +kernel
  have hargument : Layer doubling 1 [⟨.name, "x"⟩] (.var "x") :=
    Layer.var rfl (by decide)
  rw [htokens]
  exact Layer.weaken
    (.factor (.negative (.inl rfl) (.factorial (.call rfl (.last hargument))))) (by decide)

theorem Parsed.ofText_callees_doubling :
    ∃ parsed, ofText doubling "-twice(x)!" = .ok parsed ∧
      parsed.root = .call "-" [.call "!" [.call "twice" [.var "x"]]] ∧
      (∀ name args, Node (.call name args) parsed.root →
        doubling.arity? name = some args.length ∨
          doubling.arity? name = none ∧ args.length = 1 ∧ (name = "!" ∨ name = "-")) ∧
      ∀ bindings failure, evaluate doubling bindings parsed.root = .error failure →
        failure.code ≠ .argumentCount := by
  have hread := ofTokens_of_layer layer_doubling
  have hmarks : Marks doubling := .inl rfl
  rcases ofText_callees hread with ⟨hcalls, hfailures⟩
  refine ⟨_, hread, rfl, fun name args hnode => hcalls name args hnode fun _ => hmarks, ?_⟩
  intro bindings failure hfailure hcode
  exact ((hfailures bindings failure hfailure).2 hcode).1 hmarks

/-- A prefix minus without a function of its name is read, and has no value. -/
theorem Parsed.ofText_minus_unregistered :
    ∃ parsed, ofText .empty "-x" = .ok parsed ∧
      (¬ ∀ name args, Node (.call name args) parsed.root →
          Registry.empty.arity? name = some args.length ∨
            Registry.empty.arity? name = none ∧ name = Token.factorialMark ∧
              args.length = 1) ∧
      evaluate .empty .empty parsed.root = .error (.unknownFunction Token.minusMark) := by
  have htokens : Token.ofText "-x" = [Token.minus, ⟨.name, "x"⟩] := by decide +kernel
  have hlayer : Layer .empty 1 (Token.ofText "-x") (.call Token.minusMark [.var "x"]) := by
    rw [htokens]
    exact Layer.weaken (.factor (.negative (.inl rfl) (.plain (.var rfl)))) (by decide)
  refine ⟨_, ofTokens_of_layer hlayer, ?_, ?_⟩
  · intro hcalls
    rcases hcalls Token.minusMark [.var "x"] .root with harity | ⟨-, hname, -⟩
    · cases harity
    · exact absurd hname (by decide)
  · exact evaluate_call_of_unknown (calleeArity?_eq_none_iff.2 ⟨rfl, by decide⟩)

/-! ## Under another registry -/

/-- What another registry has to keep for a tree that was read: the arities of the functions
that are called with an identifier, with a negation of one argument, and a factorial that is
none or of one argument. -/
structure Expression.KeepsCallees (registry other : Registry) (tree : Expression) : Prop where
  called : ∀ name args, Node (.call name args) tree → Token.IsName name.toList →
    other.arity? name = registry.arity? name
  negation : other.arity? Token.minusMark = some 1
  factorial : Marks other

namespace Parsed

variable {registry other : Registry} {text : String} {parsed : Parsed}

theorem callable_of_keepsCallees (h : ofText registry text = .ok parsed)
    (hkeeps : KeepsCallees registry other parsed.root) : Callable other parsed.root := by
  intro name args hnode
  rcases call_form_of_ofText h hnode with
    ⟨hidentifier, harity⟩ | ⟨rfl, hone⟩ | ⟨rfl, hone, -⟩
  · exact calleeArity?_of_arity? ((hkeeps.called name args hnode hidentifier).trans harity)
  · rw [hone]
    exact calleeArity?_factorialMark hkeeps.factorial
  · rw [hone]
    exact calleeArity?_of_arity? hkeeps.negation

/-- Reading fails for its own causes. What was read evaluates, under every registry that keeps
its callees, to a finite value or fails for a cause of its own: a missing variable, a zero
divisor where the tree divides, a value that is not finite, or a factorial that is not
registered. No cause is of the class of unknown nodes. -/
theorem failures_apart (registry : Registry) (text : String) :
    (∀ failure, ofText registry text = .error failure →
        failure.code ∈ FailureCode.ofReading) ∧
      (∀ parsed other bindings, ofText registry text = .ok parsed →
        KeepsCallees registry other parsed.root →
          (∃ value, evaluate other bindings parsed.root = .ok value ∧ IsFinite value) ∨
            ∃ failure, evaluate other bindings parsed.root = .error failure ∧
              failure.code ∈ FailureCode.ofEvaluation ∧
              (failure.code = .divisionByZero →
                ∃ operator left right, Node (.binary operator left right) parsed.root ∧
                  (operator = .divide ∨ operator = .remainder)) ∧
              (failure.code = .malformed →
                (∃ args, Node (.call Token.factorialMark args) parsed.root) ∧
                  other.function? Token.factorialMark = none)) ∧
      ∀ failure : Failure, failure.code ≠ .unknownNode := by
  refine ⟨fun failure h => Failure.code_mem_ofReading (isRefusal_of_ofText h), ?_, ?_⟩
  · intro parsed other bindings hread hkeeps
    cases hresult : evaluate other bindings parsed.root with
    | ok value => exact .inl ⟨value, rfl, isFinite_of_evaluate_eq_ok hresult⟩
    | error failure =>
        have hclass :=
          (callable_of_keepsCallees hread hkeeps).code_mem_ofEvaluation hresult
        rcases exists_fault_of_evaluate_eq_error hresult with ⟨node, hnode, hfault⟩
        refine .inr ⟨failure, rfl, hclass, ?_, ?_⟩
        · intro hcode
          rcases hfault.of_divisionByZero hcode with ⟨operator, left, right, rfl, hoperator⟩
          exact ⟨operator, left, right, hnode, hoperator⟩
        · intro hcode
          rcases hfault.of_malformed hcode with ⟨arg, rfl, hunregistered⟩
          exact ⟨⟨[arg], hnode⟩, hunregistered⟩
  · intro failure
    cases failure <;> simp [Failure.code]

/-- The tree is read without a function for its minus, and evaluated with one. -/
theorem failures_apart_negating :
    ∃ parsed, ofText doubling "-twice(x)!" = .ok parsed ∧
      KeepsCallees doubling (doubling.addFunction "-" (.unary fun x => -x)) parsed.root ∧
      ∀ bindings failure,
        evaluate (doubling.addFunction "-" (.unary fun x => -x)) bindings parsed.root =
            .error failure →
          failure.code ∈ FailureCode.ofEvaluation := by
  have hread := ofTokens_of_layer layer_doubling
  have hkeeps : KeepsCallees doubling (doubling.addFunction "-" (.unary fun x => -x))
      (.call "-" [.call "!" [.call "twice" [.var "x"]]]) := by
    refine ⟨fun name args hnode hidentifier => ?_, rfl, .inl rfl⟩
    have hname : name ≠ "-" := by
      intro heq
      subst heq
      exact not_isName_minusMark hidentifier
    simp [Registry.arity?, hname]
  refine ⟨_, hread, hkeeps, ?_⟩
  intro bindings failure hfailure
  rcases (failures_apart doubling "-twice(x)!").2.1 _ _ bindings hread hkeeps with
    ⟨value, hvalue, -⟩ | ⟨other, hother, hcode, -⟩
  · cases hvalue.symm.trans hfailure
  · cases hother.symm.trans hfailure
    exact hcode

end Parsed

end Formula
