/-!
# Failures

A failure tells what went wrong, the outermost account first and the root cause
last. Work that has broken off is no longer there to tell of its failure, and
whoever waits for its answer gets none.
-/

namespace JobChain

/-- One account of a failure. A closed one ends in a report made elsewhere, and
nothing is told behind it. -/
structure Note where
  text : String
  closed : Bool := false
  deriving DecidableEq, Repr

structure Failure where
  headline : Note
  causes : List Note := []
  brokenOff : Bool := false
  deriving DecidableEq, Repr

namespace Failure

def ofText (text : String) : Failure := { headline := { text } }

def breaksOff {α : Type} : Except Failure α → Bool
  | .error failure => failure.brokenOff
  | .ok _ => false

def within (context : String) (failure : Failure) : Failure :=
  { failure with
    headline := { text := context }
    causes := failure.headline :: failure.causes }

def join : List Note → String
  | [] => ""
  | [note] => note.text
  | note :: rest =>
      if note.closed then note.text else note.text ++ ": " ++ join rest

def full (failure : Failure) : String :=
  join (failure.headline :: failure.causes)

end Failure

end JobChain
