import Formula.Session

/-!
# Histories of sessions

The steps taken on a session, and what a history of steps says about each part of the
session it leads to. A history lists its steps with the latest first, so every tail of
it is an earlier moment.

The parts of a session live for different times. The text, the tree and the parsed
variables go back to the last reading, the bindings to the steps that bind, the
registry to the steps that register, and the result to the last evaluation that
succeeded.
-/

namespace Formula

/-- One step on a session. -/
inductive Step where
  | parse (text : String)
  | eval
  | set (name : String) (value : Float)
  | setIfAbsent (name : String) (value : Float)
  | unset (name : String)
  | addParsedVariable (name : String) (value : Float)
  | addConstant (name : String) (value : Float)
  | addFunction (name : String) (function : Function)

namespace Step

/-- The value a step puts into the parsed variables under a name. -/
def parsedVariable? (name : String) : Step → Option Float
  | .addParsedVariable other value => if name = other then some value else none
  | _ => none

/-- The value a step registers as a constant of a name. -/
def constant? (name : String) : Step → Option Float
  | .addConstant other value => if name = other then some value else none
  | _ => none

/-- The function a step registers under a name. -/
def function? (name : String) : Step → Option Function
  | .addFunction other function => if name = other then some function else none
  | _ => none

end Step

/-- What a step answers. Only reading and evaluating can fail. -/
inductive Reply where
  | parsed (outcome : Except Failure Unit)
  | evaluated (outcome : Except Failure Float)
  | done

/-- The value a reply brings. -/
def Reply.value? : Reply → Option Float
  | .evaluated (.ok value) => some value
  | _ => none

/-- Take a step. -/
def Session.perform (session : Session) : Step → Session × Reply
  | .parse text =>
      let (next, outcome) := session.parse text
      (next, .parsed outcome)
  | .eval =>
      let (next, outcome) := session.eval
      (next, .evaluated outcome)
  | .set name value => (session.set name value, .done)
  | .setIfAbsent name value => (session.setIfAbsent name value, .done)
  | .unset name => (session.unset name, .done)
  | .addParsedVariable name value => (session.addParsedVariable name value, .done)
  | .addConstant name value => (session.addConstant name value, .done)
  | .addFunction name function => (session.addFunction name function, .done)

/-- The steps taken so far, the latest first. -/
abbrev History := List Step

namespace History

/-! ## Running a history -/

/-- The session that a history leads to from a fresh one over a registry. -/
def session (initial : Registry) : History → Session
  | [] => .ofRegistry initial
  | step :: past => ((session initial past).perform step).1

/-- The replies to the steps of a history, the latest first. -/
def replies (initial : Registry) : History → List Reply
  | [] => []
  | step :: past => ((session initial past).perform step).2 :: replies initial past

/-! ## Reading a history -/

/-- The last text that was read, and the steps before it. -/
def lastParse? : History → Option (String × History)
  | [] => none
  | .parse text :: past => some (text, past)
  | _ :: past => lastParse? past

/-- The steps since the last text was read. -/
def sinceParse : History → History
  | [] => []
  | .parse _ :: _ => []
  | step :: past => step :: sinceParse past

/-- The registry that the registering steps make of the initial one. -/
def registry (initial : Registry) : History → Registry
  | [] => initial
  | .addConstant name value :: past => (registry initial past).addConstant name value
  | .addFunction name function :: past => (registry initial past).addFunction name function
  | _ :: past => registry initial past

/-- What the last text was read as, under the registry of that moment. -/
def lastParsed? (initial : Registry) (past : History) : Option Parsed :=
  (lastParse? past).bind fun (text, before) =>
    (Parsed.ofText (registry initial before) text).toOption

/-- The value that the variable steps give a name: the last step that writes it decides. -/
def bound? (name : String) : History → Option Float
  | [] => none
  | .set other value :: past => if name = other then some value else bound? name past
  | .setIfAbsent other value :: past =>
      if name = other then (bound? name past).or (some value) else bound? name past
  | .unset other :: past => if name = other then none else bound? name past
  | _ :: past => bound? name past

/-- The value of the last evaluation that succeeded. -/
def lastValue? (replies : List Reply) : Option Float :=
  replies.findSome? Reply.value?

end History

end Formula
