import Formula.Proofs.Expression.Nodes
import Mathlib.Data.List.Basic

/-!
# Substitution

Expressions put in the place of variable leaves. Names that are called are no leaves
and stay.
-/

namespace Formula

namespace Expression

mutual

/-- The tree with an expression in the place of every variable leaf. -/
def substitute (leaf : String → Expression) : Expression → Expression
  | .number value => .number value
  | .var name => leaf name
  | .binary operator left right =>
      .binary operator (substitute leaf left) (substitute leaf right)
  | .call name args => .call name (substituteAll leaf args)

def substituteAll (leaf : String → Expression) : List Expression → List Expression
  | [] => []
  | arg :: args => substitute leaf arg :: substituteAll leaf args

end

/-- The leaves that put one tree in the place of one name. -/
def replacing (name : String) (tree : Expression) (other : String) : Expression :=
  if other = name then tree else .var other

variable (leaf : String → Expression)

@[simp] theorem substitute_number (value : Float) :
    substitute leaf (.number value) = .number value := by
  rw [substitute]

@[simp] theorem substitute_var (name : String) : substitute leaf (.var name) = leaf name := by
  rw [substitute]

@[simp] theorem substitute_binary (operator : Operator) (left right : Expression) :
    substitute leaf (.binary operator left right) =
      .binary operator (substitute leaf left) (substitute leaf right) := by
  rw [substitute]

@[simp] theorem substituteAll_eq_map (args : List Expression) :
    substituteAll leaf args = args.map (substitute leaf) := by
  induction args with
  | nil => rw [substituteAll, List.map_nil]
  | cons arg args ih => rw [substituteAll, List.map_cons, ih]

@[simp] theorem substitute_call (name : String) (args : List Expression) :
    substitute leaf (.call name args) = .call name (args.map (substitute leaf)) := by
  rw [substitute, substituteAll_eq_map]

theorem substitute_var_self (tree : Expression) : substitute .var tree = tree := by
  induction tree using tree_induction with
  | number value => rw [substitute_number]
  | var name => rw [substitute_var]
  | binary operator left right hleft hright => rw [substitute_binary, hleft, hright]
  | call name args hargs =>
      rw [substitute_call, List.map_congr_left hargs, List.map_id']

/-! ## Variables -/

theorem argumentNames_eq_flatMap (args : List Expression) :
    argumentNames args = args.flatMap variableNames := by
  induction args with
  | nil => simp
  | cons arg args ih => simp [ih]

/-- The names of the variable leaves are the names at the variable nodes. -/
theorem mem_variableNames_iff {name : String} {tree : Expression} :
    name ∈ tree.variableNames ↔ Node (.var name) tree := by
  induction tree using tree_induction with
  | number value =>
      rw [variableNames_number]
      constructor
      · intro h
        cases h
      · intro h
        cases h
  | var other =>
      rw [variableNames_var, List.mem_singleton]
      constructor
      · intro h
        exact h ▸ .root
      · intro h
        cases h
        rfl
  | binary operator left right hleft hright =>
      rw [variableNames_binary, List.mem_append, hleft, hright]
      constructor
      · rintro (h | h)
        · exact h.left
        · exact h.right
      · intro h
        cases h with
        | left h => exact .inl h
        | right h => exact .inr h
  | call callee args hargs =>
      rw [variableNames_call, argumentNames_eq_flatMap, List.mem_flatMap]
      constructor
      · rintro ⟨arg, hmem, h⟩
        exact .argument hmem ((hargs arg hmem).1 h)
      · intro h
        cases h with
        | argument hmem h => exact ⟨_, hmem, (hargs _ hmem).2 h⟩

theorem variableNames_substitute (tree : Expression) :
    (substitute leaf tree).variableNames =
      tree.variableNames.flatMap fun name => (leaf name).variableNames := by
  induction tree using tree_induction with
  | number value => simp
  | var name => simp
  | binary operator left right hleft hright => simp [hleft, hright]
  | call name args hargs =>
      rw [substitute_call, variableNames_call, variableNames_call, argumentNames_eq_flatMap,
        argumentNames_eq_flatMap, List.flatMap_assoc, List.flatMap_map]
      exact List.flatMap_congr hargs

theorem mem_variableNames_replacing {name other : String} {tree part : Expression}
    (hname : name ∈ tree.variableNames) :
    other ∈ (substitute (replacing name part) tree).variableNames ↔
      (other ∈ tree.variableNames ∧ other ≠ name) ∨ other ∈ part.variableNames := by
  rw [variableNames_substitute, List.mem_flatMap]
  constructor
  · intro h
    rcases h with ⟨leaf, hleaf, hother⟩
    by_cases heq : leaf = name
    · rw [replacing, if_pos heq] at hother
      exact .inr hother
    · rw [replacing, if_neg heq, variableNames_var, List.mem_singleton] at hother
      rw [hother]
      exact .inl ⟨hleaf, heq⟩
  · intro h
    rcases h with ⟨hother, hne⟩ | hother
    · exact ⟨other, hother, by simp [replacing, hne]⟩
    · exact ⟨name, hname, by simpa [replacing] using hother⟩

end Expression

end Formula
