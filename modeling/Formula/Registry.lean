import Formula.Function
import Formula.Table

/-!
# Registries

The functions and constants that formulas may name. A function and a constant may
share a name: a name before an opening parenthesis is a call, any other is not.
-/

namespace Formula

structure Registry where
  functions : Table Function
  constants : Table Float

namespace Registry

def empty : Registry :=
  ⟨.empty, .empty⟩

def addFunction (registry : Registry) (name : String) (function : Function) : Registry :=
  { registry with functions := registry.functions.insert name function }

def addConstant (registry : Registry) (name : String) (value : Float) : Registry :=
  { registry with constants := registry.constants.insert name value }

def function? (registry : Registry) (name : String) : Option Function :=
  registry.functions.get? name

def constant? (registry : Registry) (name : String) : Option Float :=
  registry.constants.get? name

def arity? (registry : Registry) (name : String) : Option Nat :=
  (registry.function? name).map Function.arity

def containsFunction (registry : Registry) (name : String) : Bool :=
  registry.functions.contains name

def withoutConstants (registry : Registry) : Registry :=
  { registry with constants := .empty }

@[simp] theorem function?_addConstant (registry : Registry) (name other : String)
    (value : Float) :
    (registry.addConstant name value).function? other = registry.function? other := rfl

@[simp] theorem constant?_addFunction (registry : Registry) (name other : String)
    (function : Function) :
    (registry.addFunction name function).constant? other = registry.constant? other := rfl

@[simp] theorem function?_withoutConstants (registry : Registry) (name : String) :
    registry.withoutConstants.function? name = registry.function? name := rfl

@[simp] theorem constant?_withoutConstants (registry : Registry) (name : String) :
    registry.withoutConstants.constant? name = none := rfl

@[simp] theorem function?_addFunction (registry : Registry) (name other : String)
    (function : Function) :
    (registry.addFunction name function).function? other =
      if other = name then some function else registry.function? other :=
  Table.get?_insert registry.functions name other function

@[simp] theorem constant?_addConstant (registry : Registry) (name other : String)
    (value : Float) :
    (registry.addConstant name value).constant? other =
      if other = name then some value else registry.constant? other :=
  Table.get?_insert registry.constants name other value

theorem arity?_of_function? {registry : Registry} {name : String} {function : Function}
    (h : registry.function? name = some function) :
    registry.arity? name = some function.arity := by
  rw [arity?, h, Option.map_some]

@[simp] theorem arity?_addFunction (registry : Registry) (name other : String)
    (function : Function) :
    (registry.addFunction name function).arity? other =
      if other = name then some function.arity else registry.arity? other := by
  rw [arity?, function?_addFunction]
  split <;> rfl

theorem containsFunction_eq_isSome (registry : Registry) (name : String) :
    registry.containsFunction name = (registry.arity? name).isSome :=
  Option.isSome_map.symm

end Registry

end Formula
