import JobChain.Filter
import JobChain.OutputFile

/-!
# Functions at hand

Functions that every installation knows: the identity, the start of a walk,
counts by group and sums.
-/

namespace JobChain

namespace Builtin

/-! ## Maps -/

def identity : MapFunction :=
  { State := Unit, start := (), map := fun _ state pair => .write state pair }

def startPaths : MapFunction where
  State := Bool
  start := false
  setup options _ := .silent (options.switch Options.trackPaths false)
  map _ wholePaths pair :=
    .write wholePaths
      { pair with value := Element.startPaths wholePaths pair.value }

def groupOption : String := "group-count.property"

def defaultGroup : String := "label"

/-- Writes the field and the number of paths of each vertex that has paths, and
hands every vertex on as an element of the graph. -/
def groupCount : MapFunction where
  State := String
  start := ""
  setup options _ := .silent ((options.get? groupOption).getD defaultGroup)
  map _ names pair :=
    let paths := Element.pathCount pair.value
    let group := (Element.field? pair.value names).getD .null
    let counted := if 0 < paths then [Action.write ⟨group, .ofNat paths⟩] else []
    { actions := counted ++ [.writeNamed graphOutput pair], state := names }

/-! ## Sums -/

def naturalSum? (values : List Json) : Option Nat :=
  values.foldlM (fun total value => do
    let n ← value.toNat?
    if total + n < 0x10000000000000000 then some (total + n) else none) 0

def floatSum (values : List Json) : Binary64 :=
  (values.filterMap Json.toBinary64?).foldl Binary64.add (.zero true)

def sum (values : List Json) : Json :=
  match naturalSum? values with
  | some total => .ofNat total
  | none => .ofBinary64 (floatSum values)

def sumTo (action : Pair → Action) : ReduceFunction where
  State := Unit
  start := ()
  reduce _ state key values := { actions := [action ⟨key, sum values⟩], state }

def sums : ReduceFunction := sumTo .write

/-- Writes the sum of the values of each key to the output for what is learned
on the way. -/
def sideSums : ReduceFunction := sumTo (.writeNamed sideOutput)

/-! ## Stages -/

def groupCountStage (name field : String) : Stage :=
  { name, kind := .mapReduce, map := "group-count", combine := some "sum"
    reduce := some "sum-side-effect", mapOutput := some ⟨.json, .long⟩
    reduceOutput := some ⟨.json, .long⟩,
    options := .ofList [(groupOption, field)] }

def startPathsStage (name : String) : Stage :=
  { name, kind := .mapOnly, map := "start-paths", mapOutput := some .graph }

end Builtin

end JobChain
