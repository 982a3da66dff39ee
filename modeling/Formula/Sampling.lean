import Formula.Session

/-!
# Sampling

The values of a session's formula over evenly spaced positions of one variable. A
position whose evaluation fails gets a fallback value and is counted by the class of
its failure.

The positions may be shared out among workers. A worker starts from a copy of the
session and evaluates its positions one after the other; the outcomes are put back
into the order of the positions.
-/

namespace Formula

structure Sampling where
  target : String
  lower : Float
  upper : Float
  count : Nat
  /-- The value recorded where evaluation fails. -/
  fallback : Float

/-- How many samples failed, by class, and the first failure. -/
structure FailureTally where
  divisionByZero : Nat
  infinite : Nat
  notANumber : Nat
  other : Nat
  first? : Option Failure

namespace FailureTally

def empty : FailureTally :=
  ⟨0, 0, 0, 0, none⟩

def record (tally : FailureTally) (failure : Failure) : FailureTally :=
  let tally := { tally with first? := tally.first?.or (some failure) }
  match failure.code with
  | .divisionByZero => { tally with divisionByZero := tally.divisionByZero + 1 }
  | .infinite => { tally with infinite := tally.infinite + 1 }
  | .notANumber => { tally with notANumber := tally.notANumber + 1 }
  | _ => { tally with other := tally.other + 1 }

def total (tally : FailureTally) : Nat :=
  tally.divisionByZero + tally.infinite + tally.notANumber + tally.other

def isEmpty (tally : FailureTally) : Bool :=
  tally.total == 0

/-- One line on the gravest numeric failure. -/
def summary? (tally : FailureTally) : Option String :=
  if 0 < tally.divisionByZero then some "Some portions have div by zero"
  else if 0 < tally.infinite then some "Some portions have inf value"
  else if 0 < tally.notANumber then some "Some portions have nan value"
  else none

def ofOutcomes (outcomes : List (Except Failure Float)) : FailureTally :=
  outcomes.foldl
    (fun tally outcome =>
      match outcome with
      | .ok _ => tally
      | .error failure => tally.record failure)
    empty

end FailureTally

structure Samples where
  positions : List Float
  values : List Float
  failures : FailureTally

namespace Sampling

/-- A thousand positions of `x` from `-2` up to `2`. -/
def standard : Sampling :=
  ⟨"x", -2, 2, 1000, 0⟩

def spacing (config : Sampling) : Float :=
  (config.upper - config.lower) / Float.ofNat config.count

def position (config : Sampling) (index : Nat) : Float :=
  config.lower + Float.ofNat index * config.spacing

def positions (config : Sampling) : List Float :=
  (List.range config.count).map config.position

/-- Evaluate at one index, on a session that may have been used before, and look up the result
that the session then holds. -/
def visit (config : Sampling) (session : Session) (index : Nat) :
    Session × Except Failure Float :=
  let (next, outcome) := (session.set config.target (config.position index)).eval
  (next, outcome.map fun _ => next.result)

def work (config : Sampling) : Session → List Nat → List (Nat × Except Failure Float)
  | _, [] => []
  | session, index :: rest =>
      let (next, outcome) := config.visit session index
      (index, outcome) :: config.work next rest

/-- The outcomes in the order of the indices, for a given share of every worker. -/
def outcomes (config : Sampling) (session : Session) (shares : List (List Nat)) :
    List (Except Failure Float) :=
  ((shares.flatMap (config.work session)).mergeSort fun a b => a.1 ≤ b.1).map Prod.snd

def sampleShared (config : Sampling) (session : Session) (shares : List (List Nat)) :
    Except Failure Samples :=
  match session.root? with
  | none => .error .nothingParsed
  | some _ =>
      let outcomes := config.outcomes session shares
      .ok
        { positions := config.positions
          values := outcomes.map fun outcome => outcome.toOption.getD config.fallback
          failures := .ofOutcomes outcomes }

/-- Sample with one worker that visits every index in turn. -/
def sample (config : Sampling) (session : Session) : Except Failure Samples :=
  config.sampleShared session [List.range config.count]

end Sampling

end Formula
