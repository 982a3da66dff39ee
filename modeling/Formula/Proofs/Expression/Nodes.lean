import Formula.Expression

/-!
# Nodes of expressions

The nodes of a tree, and the names of its variable leaves from left to right.
-/

namespace Formula

namespace Expression

mutual

/-- The names of the variable leaves, from left to right. -/
def variableNames : Expression → List String
  | .number _ => []
  | .var name => [name]
  | .binary _ left right => left.variableNames ++ right.variableNames
  | .call _ args => argumentNames args

def argumentNames : List Expression → List String
  | [] => []
  | arg :: args => arg.variableNames ++ argumentNames args

end

@[simp] theorem variableNames_number (value : Float) : (number value).variableNames = [] := by
  rw [variableNames]

@[simp] theorem variableNames_var (name : String) : (var name).variableNames = [name] := by
  rw [variableNames]

@[simp] theorem variableNames_binary (operator : Operator) (left right : Expression) :
    (binary operator left right).variableNames = left.variableNames ++ right.variableNames := by
  rw [variableNames]

@[simp] theorem variableNames_call (name : String) (args : List Expression) :
    (call name args).variableNames = argumentNames args := by
  rw [variableNames]

@[simp] theorem argumentNames_nil : argumentNames [] = [] := by
  rw [argumentNames]

@[simp] theorem argumentNames_cons (arg : Expression) (args : List Expression) :
    argumentNames (arg :: args) = arg.variableNames ++ argumentNames args := by
  rw [argumentNames]

/-- Induction over a tree, with the hypothesis for every argument of a call. -/
@[elab_as_elim]
theorem tree_induction {motive : Expression → Prop} (tree : Expression)
    (number : ∀ value, motive (.number value))
    (var : ∀ name, motive (.var name))
    (binary : ∀ operator left right, motive left → motive right →
      motive (.binary operator left right))
    (call : ∀ name args, (∀ arg ∈ args, motive arg) → motive (.call name args)) :
    motive tree := by
  refine @Expression.rec motive (fun args => ∀ arg ∈ args, motive arg)
    number var binary call ?_ ?_ tree
  · intro arg hmem
    cases hmem
  · intro head args hhead hargs arg hmem
    rcases List.mem_cons.mp hmem with rfl | hmem
    · exact hhead
    · exact hargs arg hmem

/-- A node of a tree: the tree itself or a node of one of its operands or arguments. -/
inductive Node (node : Expression) : Expression → Prop
  | root : Node node node
  | left {operator : Operator} {left right : Expression} (inner : Node node left) :
      Node node (.binary operator left right)
  | right {operator : Operator} {left right : Expression} (inner : Node node right) :
      Node node (.binary operator left right)
  | argument {name : String} {args : List Expression} {arg : Expression} (mem : arg ∈ args)
      (inner : Node node arg) : Node node (.call name args)

/-! ## Properties of all nodes -/

variable {property : Expression → Prop}

theorem forall_node_number {value : Float} (root : property (.number value)) :
    ∀ node, Node node (.number value) → property node := by
  intro node hnode
  cases hnode
  exact root

theorem forall_node_var {name : String} (root : property (.var name)) :
    ∀ node, Node node (.var name) → property node := by
  intro node hnode
  cases hnode
  exact root

theorem forall_node_binary {operator : Operator} {left right : Expression}
    (root : property (.binary operator left right))
    (first : ∀ node, Node node left → property node)
    (second : ∀ node, Node node right → property node) :
    ∀ node, Node node (.binary operator left right) → property node := by
  intro node hnode
  cases hnode with
  | root => exact root
  | left hinner => exact first node hinner
  | right hinner => exact second node hinner

theorem forall_node_call {name : String} {args : List Expression}
    (root : property (.call name args))
    (inner : ∀ arg ∈ args, ∀ node, Node node arg → property node) :
    ∀ node, Node node (.call name args) → property node := by
  intro node hnode
  cases hnode with
  | root => exact root
  | argument hmem hinner => exact inner _ hmem node hinner

end Expression

end Formula
