/-!
# Logs

What is told about a run besides its outcome.
-/

namespace JobChain

inductive Level where
  | debug
  | info
  | warning
  | error
  deriving DecidableEq, Repr

structure LogLine where
  level : Level
  text : String
  deriving DecidableEq, Repr

end JobChain
