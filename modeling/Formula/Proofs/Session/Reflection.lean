import Formula.Proofs.Session.History

/-!
# Sessions reflect their histories

Every part of a session is what its history says, at every moment of every history.
One step keeps the parts and the readings of the history in agreement; all histories
follow by induction.
-/

namespace Formula

namespace History

/-- The parts of a session agree with a history and the replies to its steps. -/
structure Reflects (initial : Registry) (past : History) (replies : List Reply)
    (session : Session) : Prop where
  text : session.text = ((lastParse? past).map Prod.fst).getD ""
  root : session.root? = (lastParsed? initial past).map Parsed.root
  parsedVariables : ∀ name, session.parsedVariables.get? name =
    ((sinceParse past).findSome? (Step.parsedVariable? name)).or
      ((lastParsed? initial past).bind fun parsed => parsed.defaults.get? name)
  bindings : ∀ name, session.bindings.get? name = bound? name past
  registry : session.registry = registry initial past
  constants : ∀ name, session.registry.constant? name =
    (past.findSome? (Step.constant? name)).or (initial.constant? name)
  functions : ∀ name, session.registry.function? name =
    (past.findSome? (Step.function? name)).or (initial.function? name)
  result : session.result = (lastValue? replies).getD 0

namespace Reflects

variable {initial : Registry} {past : History} {replies : List Reply} {session : Session}

theorem ofRegistry (initial : Registry) : Reflects initial [] [] (.ofRegistry initial) where
  text := rfl
  root := rfl
  parsedVariables _ := rfl
  bindings _ := rfl
  registry := rfl
  constants _ := rfl
  functions _ := rfl
  result := rfl

/-! ## One step -/

theorem parse (h : Reflects initial past replies session) (text : String) :
    Reflects initial (.parse text :: past) (.parsed (session.parse text).2 :: replies)
      (session.parse text).1 := by
  have hparsed : lastParsed? initial (.parse text :: past) =
      (Parsed.ofText session.registry text).toOption := by
    rw [h.registry]
    rfl
  unfold Session.parse
  cases hread : Parsed.ofText session.registry text with
  | ok parsed =>
      rw [hread] at hparsed
      exact { h with
        text := rfl
        root := by rw [hparsed]; rfl
        parsedVariables := fun name => by rw [hparsed]; rfl }
  | error failure =>
      rw [hread] at hparsed
      exact { h with
        text := rfl
        root := by rw [hparsed]; rfl
        parsedVariables := fun name => by rw [hparsed]; rfl }

theorem eval (h : Reflects initial past replies session) :
    Reflects initial (.eval :: past) (.evaluated session.eval.2 :: replies)
      session.eval.1 := by
  unfold Session.eval
  cases session.value with
  | ok value => exact { h with result := rfl }
  | error failure => exact { h with }

theorem set (h : Reflects initial past replies session) (name : String) (value : Float) :
    Reflects initial (.set name value :: past) (.done :: replies) (session.set name value) :=
  { h with
    bindings := fun other => by
      simp only [Session.set, Table.get?_insert, h.bindings, bound?] }

theorem setIfAbsent (h : Reflects initial past replies session) (name : String)
    (value : Float) :
    Reflects initial (.setIfAbsent name value :: past) (.done :: replies)
      (session.setIfAbsent name value) :=
  { h with
    bindings := fun other => by
      simp only [Session.setIfAbsent, Table.get?_insertIfAbsent, h.bindings, bound?]
      split
      · subst other
        cases bound? name past <;> rfl
      · rfl }

theorem unset (h : Reflects initial past replies session) (name : String) :
    Reflects initial (.unset name :: past) (.done :: replies) (session.unset name) :=
  { h with
    bindings := fun other => by
      simp only [Session.unset, Table.get?_erase, h.bindings, bound?] }

theorem addParsedVariable (h : Reflects initial past replies session) (name : String)
    (value : Float) :
    Reflects initial (.addParsedVariable name value :: past) (.done :: replies)
      (session.addParsedVariable name value) :=
  { h with
    parsedVariables := fun other => by
      simp only [Session.addParsedVariable, Table.get?_insert, h.parsedVariables, sinceParse,
        List.findSome?_cons, Step.parsedVariable?, lastParsed?, lastParse?]
      split <;> rfl }

theorem addConstant (h : Reflects initial past replies session) (name : String)
    (value : Float) :
    Reflects initial (.addConstant name value :: past) (.done :: replies)
      (session.addConstant name value) :=
  { h with
    registry := congrArg (·.addConstant name value) h.registry
    constants := fun other => by
      simp only [Session.addConstant, Registry.constant?_addConstant, h.constants,
        List.findSome?_cons, Step.constant?]
      split <;> rfl }

theorem addFunction (h : Reflects initial past replies session) (name : String)
    (function : Function) :
    Reflects initial (.addFunction name function :: past) (.done :: replies)
      (session.addFunction name function) :=
  { h with
    registry := congrArg (·.addFunction name function) h.registry
    functions := fun other => by
      simp only [Session.addFunction, Registry.function?_addFunction, h.functions,
        List.findSome?_cons, Step.function?]
      split <;> rfl }

/-- A step keeps a session and its history in agreement. -/
theorem perform (h : Reflects initial past replies session) (step : Step) :
    Reflects initial (step :: past) ((session.perform step).2 :: replies)
      (session.perform step).1 := by
  cases step with
  | parse text => exact h.parse text
  | eval => exact h.eval
  | set name value => exact h.set name value
  | setIfAbsent name value => exact h.setIfAbsent name value
  | unset name => exact h.unset name
  | addParsedVariable name value => exact h.addParsedVariable name value
  | addConstant name value => exact h.addConstant name value
  | addFunction name function => exact h.addFunction name function

/-- The value of a session that reflects a history. -/
theorem value (h : Reflects initial past replies session) :
    session.value =
      match lastParsed? initial past with
      | none => .error .nothingParsed
      | some parsed =>
          parsed.root.evaluate (History.registry initial past) session.bindings := by
  rw [Session.value, h.root, h.registry]
  cases lastParsed? initial past <;> rfl

end Reflects

/-! ## Whole histories -/

theorem reflects_session (initial : Registry) (past : History) :
    Reflects initial past (replies initial past) (session initial past) := by
  induction past with
  | nil => exact .ofRegistry initial
  | cons step past ih => exact ih.perform step

theorem reply_eval (session : Session) :
    (session.perform .eval).2 = .evaluated session.value := by
  simp only [Session.perform, Session.eval]
  cases session.value <;> rfl

/-- At every moment a session reflects its history. An evaluation at that moment answers with
the value of the tree of the last reading under the functions and the bindings of the moment,
and with a failure where that reading left no tree. -/
theorem session_reflects_history (initial : Registry) (past : History) :
    Reflects initial past (replies initial past) (session initial past) ∧
      ((session initial past).perform .eval).2 =
        .evaluated
          (match lastParsed? initial past with
          | none => .error .nothingParsed
          | some parsed =>
              parsed.root.evaluate (registry initial past) (session initial past).bindings) := by
  have hreflects := reflects_session initial past
  refine ⟨hreflects, ?_⟩
  rw [reply_eval, hreflects.value]

end History

end Formula
