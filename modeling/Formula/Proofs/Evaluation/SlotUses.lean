import Formula.Proofs.Evaluation.Faults
import Formula.Proofs.Traced

/-!
# Uses of the argument slots

`tracedEvaluate` evaluates like `evaluate` and notes whatever a call does with its slots:
it slices them, looks at the first of them for a factorial, or applies a function to the
slice. A call gets its values in no other way. So what holds of all the noted uses holds
of every call that an evaluation comes to, also where the evaluation fails later on.
-/

namespace Formula

/-- What a call does with the slots of its arguments. -/
inductive SlotUse where
  /-- As many slots are sliced off as there are arguments. -/
  | slice (args : List Expression) (slots : Slots)
  /-- The first slot is looked at, for its factorial. -/
  | first (args : List Expression)
  | application (function : Function) (values : List Float)

namespace Expression

open Traced (ofResult fail noting)

/-- A computation that notes the uses of slots. -/
abbrev SlotTraced := Traced SlotUse Failure

/-! ## The uses -/

/-- The slice of the slots that holds the values of as many arguments. -/
def tracedSlice (args : List Expression) (slots : Slots) : SlotTraced (List Float) :=
  noting (.slice args slots) (pure (slots.toList.take args.length))

def tracedFirst (args : List Expression) (slots : Slots) : SlotTraced Float :=
  noting (.first args) (pure (slots.get ⟨0, Nat.zero_lt_succ 2⟩))

def tracedApplication (function : Function) (values : List Float) : SlotTraced Float :=
  noting (.application function values) (ofResult (function.call values))

/-! ## Evaluation with its uses -/

section

variable (registry : Registry)

def tracedInvoke (name : String) (args : List Expression) (slots : Slots) :
    SlotTraced Float := do
  let values ← tracedSlice args slots
  match registry.function? name with
  | some function => tracedApplication function values
  | none => do
      let first ← tracedFirst args slots
      match Builtin.factorial? first with
      | some value => pure value
      | none => fail .undefinedFactorial

variable (bindings : Table Float)

mutual

/-- The value of an expression, with the uses of slots by the calls on the way. -/
def tracedEvaluate : Expression → SlotTraced Float
  | .number value => ofResult (settle value)
  | .var name =>
      match bindings.get? name with
      | none => fail (.unboundVariable name)
      | some value => ofResult (settle value)
  | .binary operator left right => do
      let leftValue ← tracedEvaluate left
      let rightValue ← tracedEvaluate right
      let value ← ofResult (operator.apply leftValue rightValue)
      ofResult (settle value)
  | .call name args =>
      match calleeArity? registry name with
      | none => fail (.unknownFunction name)
      | some arity =>
          if args.length ≠ arity then fail (.argumentCount name arity args.length)
          else do
            let slots ← tracedFill args 0 .blank
            let value ← tracedInvoke registry name args slots
            ofResult (settle value)

/-- Pair the slots from `next` onward with arguments, and stop where either end. -/
def tracedFill : List Expression → Nat → Slots → SlotTraced Slots
  | [], _, slots => pure slots
  | arg :: args, next, slots =>
      if next < 3 then do
        let value ← tracedEvaluate arg
        tracedFill args (next + 1) (slots.setIfInBounds next value)
      else pure slots

end

end

variable {registry : Registry} {bindings : Table Float}

/-! ## The trace changes no result -/

theorem result_tracedInvoke (name : String) (args : List Expression) (slots : Slots) :
    (tracedInvoke registry name args slots).result =
      invoke registry name args.length slots := by
  unfold tracedInvoke invoke
  rw [Traced.result_bind_of_ok rfl]
  cases registry.function? name with
  | some function => rfl
  | none =>
      simp only
      rw [Traced.result_bind_of_ok rfl]
      cases Builtin.factorial? slots[0] <;> rfl

/-- A call that gets as far as its slots has no more arguments than there are slots. -/
theorem length_le_of_calleeArity? {name : String} {count : Nat}
    (harity : calleeArity? registry name = some count) : count ≤ 3 := by
  obtain ⟨function, -, rfl⟩ | ⟨-, -, rfl⟩ := calleeArity?_eq_some_iff.1 harity
  · exact function.arity_le_three
  · omega

/-- Arguments for which there are slots are all evaluated. -/
theorem result_tracedFill {args : List Expression}
    (h : ∀ arg ∈ args, (tracedEvaluate registry bindings arg).result =
      evaluate registry bindings arg) (next : Nat)
    (hfit : args.length + next ≤ 3) (slots : Slots) :
    (tracedFill registry bindings args next slots).result =
      fill registry bindings args next slots := by
  induction args generalizing next slots with
  | nil => rw [tracedFill, fill, Traced.result_pure]
  | cons arg args ih =>
      simp only [List.length_cons] at hfit
      have hrest := ih (fun other hmem => h other (List.mem_cons_of_mem arg hmem)) (next + 1)
        (by omega)
      rw [tracedFill, fill, if_pos (by omega), Traced.result_bind, h arg List.mem_cons_self]
      simp only [hrest]

theorem result_tracedEvaluate (tree : Expression) :
    (tracedEvaluate registry bindings tree).result = evaluate registry bindings tree := by
  induction tree using tree_induction with
  | number value => rw [tracedEvaluate, evaluate, Traced.result_ofResult]
  | var name =>
      rw [tracedEvaluate, evaluate]
      cases bindings.get? name <;> rfl
  | binary operator left right hleft hright =>
      rw [tracedEvaluate, evaluate]
      simp only [Traced.result_bind, Traced.result_ofResult, hleft, hright]
  | call name args hargs =>
      rw [tracedEvaluate, evaluate]
      cases harity : calleeArity? registry name with
      | none => rfl
      | some arity =>
          simp only
          split
          · rfl
          · rename_i hcount
            have hlength : args.length = arity := by simpa using hcount
            subst hlength
            have hfit := length_le_of_calleeArity? harity
            simp only [Traced.result_bind, Traced.result_ofResult,
              result_tracedFill hargs 0 hfit, result_tracedInvoke]

end Expression

/-! ## Every use is safe -/

/-- A slice lies within the slots, and each slot in it holds the value of the argument at its
position; a factorial has one argument; a function has as many values as it takes. -/
def SlotUse.Safe (registry : Registry) (bindings : Table Float) : SlotUse → Prop
  | .slice args slots =>
      args.length ≤ 3 ∧ ∀ i (h : i < args.length),
        ∃ value, args[i].evaluate registry bindings = .ok value ∧ slots[i]? = some value
  | .first args => args.length = 1
  | .application function values => values.length = function.arity

theorem getElem?_of_mapM_eq_ok {ε α β : Type} {f : α → Except ε β} {items : List α}
    {values : List β} (h : items.mapM f = .ok values) (i : Nat) (hi : i < items.length) :
    ∃ value, f items[i] = .ok value ∧ values[i]? = some value := by
  induction items generalizing values i with
  | nil => simp at hi
  | cons item items ih =>
      rw [List.mapM_cons, bind_eq_ok_iff] at h
      obtain ⟨first, hfirst, h⟩ := h
      obtain ⟨rest, hrest, hpure⟩ := bind_eq_ok_iff.1 h
      cases hpure
      cases i with
      | zero => exact ⟨first, hfirst, rfl⟩
      | succ i => simpa using ih hrest i (by simpa using hi)

theorem Slots.getElem?_place_blank {values : List Float} (hfit : values.length ≤ 3) {i : Nat}
    (hi : i < values.length) : (place values 0 blank)[i]? = values[i]? := by
  have htake := congrArg (fun list => list[i]?) (take_place_blank hfit)
  simpa [List.getElem?_take, hi] using htake

namespace Expression

variable {registry : Registry} {bindings : Table Float}

/-- All uses of slots in a computation are safe, also where it fails. -/
abbrev UsesSafely {α : Type} (registry : Registry) (bindings : Table Float)
    (run : SlotTraced α) : Prop :=
  run.Ensures (SlotUse.Safe registry bindings) fun _ => True

theorem slots_hold_values {name : String} {args : List Expression} {slots : Slots}
    (harity : calleeArity? registry name = some args.length)
    (hslots : fill registry bindings args 0 .blank = .ok slots) :
    SlotUse.Safe registry bindings (.slice args slots) := by
  have hfit := length_le_of_calleeArity? harity
  rw [fill_eq_mapM] at hslots
  obtain ⟨values, hvalues, hplace⟩ := bind_eq_ok_iff.1 hslots
  cases hplace
  have hlength := length_of_mapM_eq_ok hvalues
  refine ⟨hfit, fun i hi => ?_⟩
  obtain ⟨value, hvalue, hget⟩ := getElem?_of_mapM_eq_ok hvalues i hi
  refine ⟨value, hvalue, ?_⟩
  rw [Slots.getElem?_place_blank (by omega) (by omega), hget]

theorem tracedInvoke_safe {name : String} {args : List Expression} {slots : Slots}
    (harity : calleeArity? registry name = some args.length)
    (hslots : fill registry bindings args 0 .blank = .ok slots) :
    UsesSafely registry bindings (tracedInvoke registry name args slots) := by
  have hslice := slots_hold_values harity hslots
  have hsliced : (tracedSlice args slots).Ensures (SlotUse.Safe registry bindings)
      fun values => values.length = args.length := by
    refine .noting hslice (.pure ?_)
    have hfit := hslice.1
    simp only [List.length_take, Vector.length_toList]
    omega
  refine hsliced.bind fun values hlength => ?_
  obtain ⟨function, hfunction, hcount⟩ | ⟨hfunction, -, hcount⟩ :=
    calleeArity?_eq_some_iff.1 harity
  · rw [hfunction]
    exact .noting (hlength.trans hcount.symm) (.ofResult fun _ _ => trivial)
  · rw [hfunction]
    have hfirst : UsesSafely registry bindings (tracedFirst args slots) :=
      .noting hcount (.pure trivial)
    refine hfirst.bind fun first _ => ?_
    split
    · exact .pure trivial
    · exact .fail _

theorem tracedFill_uses_safe {args : List Expression}
    (h : ∀ arg ∈ args, UsesSafely registry bindings (tracedEvaluate registry bindings arg))
    (next : Nat) (slots : Slots) :
    UsesSafely registry bindings (tracedFill registry bindings args next slots) := by
  induction args generalizing next slots with
  | nil =>
      rw [tracedFill]
      exact .pure trivial
  | cons arg args ih =>
      have hrest (next : Nat) (slots : Slots) :=
        ih (fun other hmem => h other (List.mem_cons_of_mem arg hmem)) next slots
      rw [tracedFill]
      split
      · exact (h arg List.mem_cons_self).bind fun value _ => hrest _ _
      · exact .pure trivial

theorem tracedFill_safe {args : List Expression}
    (h : ∀ arg ∈ args, UsesSafely registry bindings (tracedEvaluate registry bindings arg))
    (next : Nat) (hfit : args.length + next ≤ 3) (slots : Slots) :
    (tracedFill registry bindings args next slots).Ensures (SlotUse.Safe registry bindings)
      fun filled => fill registry bindings args next slots = .ok filled where
  events := (tracedFill_uses_safe h next slots).events
  result filled hfilled := by
    rwa [result_tracedFill (fun arg _ => result_tracedEvaluate arg) next hfit] at hfilled

theorem tracedEvaluate_safe (tree : Expression) :
    UsesSafely registry bindings (tracedEvaluate registry bindings tree) := by
  induction tree using tree_induction with
  | number value =>
      rw [tracedEvaluate]
      exact .ofResult fun _ _ => trivial
  | var name =>
      rw [tracedEvaluate]
      split
      · exact .fail _
      · exact .ofResult fun _ _ => trivial
  | binary operator left right hleft hright =>
      rw [tracedEvaluate]
      refine hleft.bind fun leftValue _ => hright.bind fun rightValue _ => ?_
      exact .bind (.ofResult fun _ _ => trivial) fun value _ => .ofResult fun _ _ => trivial
  | call name args hargs =>
      rw [tracedEvaluate]
      cases harity : calleeArity? registry name with
      | none => exact .fail _
      | some arity =>
          simp only
          split
          · exact .fail _
          · rename_i hcount
            have hlength : args.length = arity := by simpa using hcount
            subst hlength
            have hfit := length_le_of_calleeArity? harity
            refine (tracedFill_safe hargs 0 hfit .blank).bind fun slots hslots => ?_
            exact (tracedInvoke_safe harity hslots).bind fun value _ =>
              .ofResult fun _ _ => trivial

/-- No call misuses its slots, at any depth of any tree: the trace has the result of the
evaluation, all uses in it are safe, and so no evaluation fails for a function that was
applied to another number of values than it takes. -/
theorem evaluate_uses_slots_safely (registry : Registry) (bindings : Table Float)
    (tree : Expression) :
    (tracedEvaluate registry bindings tree).result = evaluate registry bindings tree ∧
      (∀ use ∈ (tracedEvaluate registry bindings tree).events,
        use.Safe registry bindings) ∧
      ∀ expected given,
        evaluate registry bindings tree ≠ .error (.arityMismatch expected given) := by
  refine ⟨result_tracedEvaluate tree, (tracedEvaluate_safe tree).events, ?_⟩
  intro expected given h
  obtain ⟨node, -, hfault⟩ := exists_fault_of_evaluate_eq_error h
  cases hfault

/-- The inner call slices its slots and applies, the outer slices and takes a factorial. -/
theorem evaluate_uses_slots_safely_first :
    let registry := Registry.empty.addFunction "first" (.ternary fun a _ _ => a)
    let tree : Expression := .call "!" [.call "first" [.number 3, .number 4, .number 5]]
    (tracedEvaluate registry .empty tree).events.length = 4 ∧
      ∀ use ∈ (tracedEvaluate registry .empty tree).events, use.Safe registry .empty :=
  ⟨by decide +kernel, (evaluate_uses_slots_safely _ _ _).2.1⟩

end Expression

end Formula
