import Formula.Builtin.Arithmetic
import Formula.Builtin.Circular
import Formula.Builtin.Growth
import Formula.Builtin.Shaping
import Formula.Registry

/-!
# Builtins

The families of builtin functions, the two builtin constants, and the registry that
knows them all.
-/

namespace Formula

namespace Builtin

def pi : Float := 3.141592653589793

def e : Float := 2.718281828459045

def constants : List (String × Float) :=
  [("pi", pi), ("e", e)]

def functions : List (String × Function) :=
  arithmetic ++ circular ++ growth ++ shaping

end Builtin

namespace Registry

def addFunctions (registry : Registry) (functions : List (String × Function)) : Registry :=
  { registry with functions := registry.functions.insertAll functions }

def addConstants (registry : Registry) (constants : List (String × Float)) : Registry :=
  { registry with constants := registry.constants.insertAll constants }

def standard : Registry :=
  (empty.addConstants Builtin.constants).addFunctions Builtin.functions

end Registry

end Formula
