import Formula.Failure

/-!
# Functions

A function of one, two or three doubles. Its shape is its arity, and applying it
to a list of any other length fails.
-/

namespace Formula

inductive Function where
  | unary (run : Float → Float)
  | binary (run : Float → Float → Float)
  | ternary (run : Float → Float → Float → Float)

namespace Function

def arity : Function → Nat
  | unary _ => 1
  | binary _ => 2
  | ternary _ => 3

def call (function : Function) (args : List Float) : Except Failure Float :=
  match function, args with
  | unary run, [a] => .ok (run a)
  | binary run, [a, b] => .ok (run a b)
  | ternary run, [a, b, c] => .ok (run a b c)
  | _, _ => .error (.arityMismatch function.arity args.length)

/-- A function as text. It carries no name, so its arity is all there is to show. -/
def describe (function : Function) : String :=
  "Function(arity = " ++ toString function.arity ++ ")"

theorem one_le_arity (function : Function) : 1 ≤ function.arity := by
  cases function <;> simp [arity]

theorem arity_le_three (function : Function) : function.arity ≤ 3 := by
  cases function <;> simp [arity]

theorem call_isOk_iff {function : Function} {args : List Float} :
    (∃ value, function.call args = .ok value) ↔ args.length = function.arity := by
  constructor
  · rintro ⟨value, h⟩
    unfold call at h
    split at h <;> simp_all [arity]
  · intro h
    match function, args, h with
    | unary run, [a], _ => exact ⟨run a, rfl⟩
    | binary run, [a, b], _ => exact ⟨run a b, rfl⟩
    | ternary run, [a, b, c], _ => exact ⟨run a b c, rfl⟩

end Function

end Formula
