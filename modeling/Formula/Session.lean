import Formula.Builtin
import Formula.Expression.Evaluation
import Formula.Expression.Reading

/-!
# Sessions

A session reads a formula once and evaluates it as often as needed while variables,
constants and functions change around it. A failed step reports its failure and
leaves a session that can go on.
-/

namespace Formula

/-- A formula in use: its last text and tree, what is bound, and the last result. -/
structure Session where
  text : String
  root? : Option Expression
  /-- The variables that the text was found to mention. -/
  parsedVariables : Table Float
  bindings : Table Float
  registry : Registry
  result : Float

namespace Session

def ofRegistry (registry : Registry) : Session :=
  ⟨"", none, .empty, .empty, registry, 0⟩

def standard : Session :=
  ofRegistry .standard

/-- Read a text. The tree and the variables of the text before it are dropped first. -/
def parse (session : Session) (text : String) : Session × Except Failure Unit :=
  match Parsed.ofText session.registry text with
  | .ok parsed =>
      ({ session with
          text := text, root? := some parsed.root, parsedVariables := parsed.defaults },
        .ok ())
  | .error failure =>
      ({ session with text := text, root? := none, parsedVariables := .empty },
        .error failure)

def value (session : Session) : Except Failure Float :=
  match session.root? with
  | none => .error .nothingParsed
  | some root => root.evaluate session.registry session.bindings

/-- Evaluate the tree and keep its value. A failure keeps the result before it. -/
def eval (session : Session) : Session × Except Failure Float :=
  match session.value with
  | .ok value => ({ session with result := value }, .ok value)
  | .error failure => (session, .error failure)

def set (session : Session) (name : String) (value : Float) : Session :=
  { session with bindings := session.bindings.insert name value }

def setIfAbsent (session : Session) (name : String) (value : Float) : Session :=
  { session with bindings := session.bindings.insertIfAbsent name value }

def unset (session : Session) (name : String) : Session :=
  { session with bindings := session.bindings.erase name }

def setAll (session : Session) (bindings : Table Float) : Session :=
  { session with bindings := session.bindings.insertAll bindings.entries }

def addParsedVariable (session : Session) (name : String) (value : Float) : Session :=
  { session with parsedVariables := session.parsedVariables.insert name value }

/-- Register a constant. A tree that was read before keeps the old one. -/
def addConstant (session : Session) (name : String) (value : Float) : Session :=
  { session with registry := session.registry.addConstant name value }

/-- Register a function. Later evaluations of the present tree call it. -/
def addFunction (session : Session) (name : String) (function : Function) : Session :=
  { session with registry := session.registry.addFunction name function }

def tolerance : Float := 0.001

def check (session : Session) (value : Float) : Bool :=
  (session.result - value).abs < tolerance

def describeBinding (binding : String × Float) : String :=
  ", " ++ binding.1 ++ " = " ++ Decimal.plain binding.2

def describe (session : Session) : String :=
  "Expr \"" ++ session.text ++ "\""
    ++ String.join (session.bindings.sorted.map describeBinding)
    ++ " => " ++ Decimal.plain session.result

end Session

/-- Read and evaluate a text under the builtins and the given variables. -/
def evaluateText (text : String) (bindings : Table Float) : Except Failure Float :=
  match (Session.standard.setAll bindings).parse text with
  | (_, .error failure) => .error failure
  | (session, .ok ()) => session.eval.2

end Formula
