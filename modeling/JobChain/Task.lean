import JobChain.Counters
import JobChain.Failure
import JobChain.Options

/-!
# Tasks and the functions that run in them

A function of a stage sees its options and answers each call with what it wants
done to its task. Functions may keep a state of their own from call to call. A
call that fails has done to the task what it asked for before.
-/

namespace JobChain

structure Pair where
  key : Json
  value : Json
  deriving DecidableEq, Repr

/-! ## Tasks -/

inductive Action where
  | write (pair : Pair)
  | writeNamed (output : String) (pair : Pair)
  | count (group name : String) (amount : Nat)
  | setStatus (status : String)
  | progress
  deriving DecidableEq, Repr

structure Task where
  emitted : Array Pair := #[]
  named : SortedMap String (Array Pair) := SortedMap.empty
  counters : Counters := SortedMap.empty
  status : String := ""
  progress : Nat := 0
  deriving DecidableEq

namespace Task

def perform (task : Task) : Action → Task
  | .write pair => { task with emitted := task.emitted.push pair }
  | .writeNamed output pair =>
      { task with named := task.named.update output fun pairs =>
        (pairs.getD #[]).push pair }
  | .count group name amount =>
      { task with counters := task.counters.increment group name amount }
  | .setStatus status => { task with status }
  | .progress => { task with progress := task.progress + 1 }

def performAll (task : Task) (actions : List Action) : Task :=
  actions.foldl perform task

end Task

/-- What functions can write to, count in and report to. A task is the first of
its kind. -/
class Context (τ : Type) where
  perform : τ → Action → τ

instance : Context Task := ⟨Task.perform⟩

def Context.performAll {τ : Type} [Context τ] (context : τ)
    (actions : List Action) : τ :=
  actions.foldl perform context

/-! ## Functions -/

structure Reply (σ : Type) where
  actions : List Action
  state : σ
  failure? : Option Failure := none

namespace Reply

variable {σ : Type}

def silent (state : σ) : Reply σ := { actions := [], state }

def write (state : σ) (pair : Pair) : Reply σ :=
  { actions := [.write pair], state }

def fail (state : σ) (failure : Failure) : Reply σ :=
  { actions := [], state, failure? := some failure }

end Reply

structure MapFunction where
  State : Type
  start : State
  setup : Options → State → Reply State := fun _ state => .silent state
  map : Options → State → Pair → Reply State
  cleanup : Options → State → Reply State := fun _ state => .silent state

/-- The reduce side of a stage; it serves as a combiner too. -/
structure ReduceFunction where
  State : Type
  start : State
  setup : Options → State → Reply State := fun _ state => .silent state
  reduce : Options → State → Json → List Json → Reply State
  cleanup : Options → State → Reply State := fun _ state => .silent state

end JobChain
