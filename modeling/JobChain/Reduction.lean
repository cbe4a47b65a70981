import JobChain.Stage
import JobChain.Task

/-!
# Grouping and reducing

Between map and reduce the records are sorted by key and those with equal keys
become one group. The sort is stable, so the values of a group keep the order in
which they came.
-/

namespace JobChain

/-! ## Groups -/

structure Group where
  key : Json
  values : List Json
  deriving DecidableEq, Repr

namespace Pair

def sort (order : KeyOrder) (pairs : List Pair) : List Pair :=
  pairs.mergeSort fun x y => (order.compare x.key y.key).isLE

end Pair

namespace Group

/-- Goes on with an open group, whose values are in reverse. A record belongs to
the group when its key equals that of the group's first record. -/
def gather (order : KeyOrder) (key : Json) (values : List Json) : List Pair →
    List Group
  | [] => [⟨key, values.reverse⟩]
  | pair :: rest =>
      if order.compare key pair.key = .eq then
        gather order key (pair.value :: values) rest
      else ⟨key, values.reverse⟩ :: gather order pair.key [pair.value] rest

def ofSorted (order : KeyOrder) : List Pair → List Group
  | [] => []
  | pair :: rest => gather order pair.key [pair.value] rest

def ofPairs (order : KeyOrder) (pairs : List Pair) : List Group :=
  ofSorted order (Pair.sort order pairs)

end Group

/-! ## Reducing -/

namespace ReduceFunction

def reduceAll (function : ReduceFunction) (options : Options) :
    List Group → function.State → Task → Except Failure (function.State × Task)
  | [], state, task => .ok (state, task)
  | group :: rest, state, task =>
      let reply := function.reduce options state group.key group.values
      match reply.failure? with
      | some failure => .error failure
      | none =>
          reduceAll function options rest reply.state
            ((task.performAll reply.actions).perform .progress)

def run (function : ReduceFunction) (options : Options) (groups : List Group)
    (task : Task) : Except Failure Task :=
  let first := function.setup options function.start
  match first.failure? with
  | some failure => .error failure
  | none =>
      match function.reduceAll options groups first.state
        (task.performAll first.actions) with
      | .error failure => .error failure
      | .ok (state, task) =>
          let last := function.cleanup options state
          match last.failure? with
          | some failure => .error failure
          | none => .ok (task.performAll last.actions)

end ReduceFunction

end JobChain
