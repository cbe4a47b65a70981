import JobChain.Error
import JobChain.Task

/-!
# Relays

Between two fused stages a record passes through a relay, a place for one pair.
Everything but the main output goes to the task at once, and at the last stage
the main output does too. A relay knows no more of its task than that it
performs actions.
-/

namespace JobChain

structure Relay (τ : Type) where
  slot : Option Pair := none
  emitted : Nat := 0
  terminal : Bool := false
  options : Options
  task : τ

namespace Relay

variable {τ : Type}

def emit (relay : Relay τ) (pair : Pair) : Relay τ :=
  { relay with slot := some pair, emitted := relay.emitted + 1 }

/-- Takes the pair out; none when nothing was emitted since the last time. -/
def consume (relay : Relay τ) : Option Pair × Relay τ :=
  (relay.slot, { relay with slot := none, emitted := 0 })

def enter (relay : Relay τ) (options : Options) (terminal : Bool) : Relay τ :=
  { relay with options, terminal }

variable [Context τ]

def forward (relay : Relay τ) (action : Action) : Relay τ :=
  { relay with task := Context.perform relay.task action }

def perform (relay : Relay τ) : Action → Relay τ
  | .write pair =>
      if relay.terminal then relay.forward (.write pair) else relay.emit pair
  | action => relay.forward action

def performAll (relay : Relay τ) (actions : List Action) : Relay τ :=
  actions.foldl perform relay

end Relay

end JobChain
