import Formula.Proofs.Evaluation.Faults

/-!
# What a call observes of its function

The arguments of a call have passed the checks of their own nodes, so a function is only
ever applied to finite values. What it returns is checked in turn. So two functions of
one arity act alike in every call when on finite arguments their results are equal, or
both NaN, or both infinite.
-/

namespace Formula

namespace Expression

/-- Two doubles that the check of a node does not tell apart. -/
def SettlesAlike (first second : Float) : Prop :=
  first = second ∨ (first.isNaN = true ∧ second.isNaN = true) ∨
    (first.isInf = true ∧ second.isInf = true)

theorem SettlesAlike.refl (value : Float) : SettlesAlike value value :=
  .inl rfl

theorem SettlesAlike.settle_eq {first second : Float} (h : SettlesAlike first second) :
    settle first = settle second := by
  rcases h with rfl | ⟨hfirst, hsecond⟩ | ⟨hfirst, hsecond⟩
  · rfl
  · rw [settle_of_isNaN hfirst, settle_of_isNaN hsecond]
  · rw [settle_of_isInf hfirst, settle_of_isInf hsecond]

end Expression

open Expression

namespace Function

/-- Two functions of one arity that no call tells apart: they agree on finite arguments. -/
inductive ActsAlike : Function → Function → Prop
  | unary {run other : Float → Float}
      (agree : ∀ a, IsFinite a → SettlesAlike (run a) (other a)) :
      ActsAlike (.unary run) (.unary other)
  | binary {run other : Float → Float → Float}
      (agree : ∀ a b, IsFinite a → IsFinite b → SettlesAlike (run a b) (other a b)) :
      ActsAlike (.binary run) (.binary other)
  | ternary {run other : Float → Float → Float → Float}
      (agree : ∀ a b c, IsFinite a → IsFinite b → IsFinite c →
        SettlesAlike (run a b c) (other a b c)) :
      ActsAlike (.ternary run) (.ternary other)

namespace ActsAlike

variable {function other : Function}

theorem refl (function : Function) : ActsAlike function function := by
  cases function with
  | unary run => exact .unary fun a _ => .refl _
  | binary run => exact .binary fun a b _ _ => .refl _
  | ternary run => exact .ternary fun a b c _ _ _ => .refl _

theorem arity_eq (h : ActsAlike function other) : function.arity = other.arity := by
  cases h <;> rfl

theorem settled_call (h : ActsAlike function other) {args : List Float}
    (hargs : ∀ arg ∈ args, IsFinite arg) :
    (function.call args >>= settle) = (other.call args >>= settle) := by
  cases h with
  | unary agree =>
      match args with
      | [a] => exact (agree a (hargs a (by simp))).settle_eq
      | [] | _ :: _ :: _ => rfl
  | binary agree =>
      match args with
      | [a, b] => exact (agree a b (hargs a (by simp)) (hargs b (by simp))).settle_eq
      | [] | [_] | _ :: _ :: _ :: _ => rfl
  | ternary agree =>
      match args with
      | [a, b, c] =>
          exact (agree a b c (hargs a (by simp)) (hargs b (by simp))
            (hargs c (by simp))).settle_eq
      | [] | [_] | [_, _] | _ :: _ :: _ :: _ :: _ => rfl

end ActsAlike

end Function

namespace Expression

variable {registry other : Registry} {bindings : Table Float} {name : String}

/-! ## One name under two registries -/

/-- A name calls nothing in both registries, or functions that act alike. -/
def CalledAlike (registry other : Registry) (name : String) : Prop :=
  Option.Rel Function.ActsAlike (registry.function? name) (other.function? name)

theorem calledAlike_of_eq (h : registry.function? name = other.function? name) :
    CalledAlike registry other name := by
  unfold CalledAlike
  rw [h]
  cases other.function? name with
  | none => exact .none
  | some function => exact .some (.refl function)

theorem CalledAlike.calleeArity?_eq (h : CalledAlike registry other name) :
    calleeArity? registry name = calleeArity? other name := by
  unfold CalledAlike at h
  unfold calleeArity?
  generalize registry.function? name = function? at h ⊢
  generalize other.function? name = other? at h ⊢
  cases h with
  | none => rfl
  | some halike => exact congrArg some halike.arity_eq

theorem CalledAlike.settled_applied (h : CalledAlike registry other name)
    {values : List Float} (hvalues : ∀ value ∈ values, IsFinite value) :
    (applied registry name values >>= settle) = (applied other name values >>= settle) := by
  unfold CalledAlike at h
  unfold applied
  generalize registry.function? name = function? at h ⊢
  generalize other.function? name = other? at h ⊢
  cases h with
  | none => rfl
  | some halike => exact halike.settled_call hvalues

/-- The values that a call hands to its function are finite. -/
theorem isFinite_of_mapM_eq_ok {args : List Expression} {values : List Float}
    (h : args.mapM (evaluate registry bindings) = .ok values) :
    ∀ value ∈ values, IsFinite value := by
  intro value hmem
  rcases exists_item_of_mapM_eq_ok h value hmem with ⟨arg, -, hvalue⟩
  exact isFinite_of_evaluate_eq_ok hvalue

end Expression

end Formula
