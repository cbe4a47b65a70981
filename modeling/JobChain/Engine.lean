import JobChain.FusedRun
import JobChain.JobRun
import JobChain.Publication
import JobChain.Reduction
import JobChain.Registry
import JobChain.SipHash

/-!
# The engine

Runs one job on a store: a map task for each input file with all stages fused,
and behind a shuffle a reduce task for each partition. A job that fails leaves
behind what it has written so far.
-/

namespace JobChain

abbrev Effort := ExceptT Failure (StateM Store)

namespace Effort

def ofStoreM {α : Type} (work : StoreM α) : Effort α := fun store =>
  let (result, store) := work store
  (result.mapError IoError.failure, store)

def ofExcept {ε α : Type} (failure : ε → Failure) (result : Except ε α) :
    Effort α := fun store =>
  (result.mapError failure, store)

def within {α : Type} (context : String) (work : Effort α) : Effort α :=
  fun store =>
  let (result, store) := work store
  (result.mapError (Failure.within context), store)

end Effort

namespace Engine

/-! ## Functions -/

def missing (registry : Registry) (job : Job) : List String :=
  job.maps.filter (fun name => !registry.hasMap name) ++
    (job.combiner.toList ++ job.reducer.toList).filter fun name =>
      !registry.hasReduce name

/-! ## Outputs -/

inductive Side where
  | map
  | reduce
  deriving DecidableEq, Repr

def Side.letter : Side → String
  | .map => "m"
  | .reduce => "r"

def outputName (output : String) (side : Side) (task : Nat)
    (format : RecordFormat) : String :=
  output ++ "-" ++ side.letter ++ "-" ++ Text.paddedText 5 task ++ "." ++
    format.ending

def formatFor? (job : Job) (output : String) : Option RecordFormat :=
  if output = mainOutput then some job.output.format
  else job.output.formatOf? output

def writeOutput (job : Job) (side : Side) (task : Nat) (output : String)
    (pairs : List Pair) : Effort Unit :=
  if pairs.isEmpty then pure ()
  else
    match formatFor? job output with
    | none => throw (.ofText ("salida con nombre no registrada: " ++ output))
    | some format =>
        let path :=
          job.output.location.child (outputName output side task format)
        (Effort.ofStoreM (format.save path pairs)).within ("escribiendo " ++
          path.text)

def writeAll (job : Job) (side : Side) (task : Nat) :
    List (String × Array Pair) → Effort Unit
  | [] => pure ()
  | (output, pairs) :: rest => do
      writeOutput job side task output pairs.toList
      writeAll job side task rest

/-! ## Map tasks -/

def orderOf (job : Job) : KeyOrder := job.keyOrder.getD .natural

def combine (registry : Registry) (job : Job)
    (pairs : List Pair) : Effort (Counters × List Pair) :=
  match job.combiner with
  | none => pure (.empty, pairs)
  | some name =>
      match registry.findReduce name with
      | .error error => throw error.failure
      | .ok function => do
          let groups := Group.ofPairs (orderOf job) pairs
          let task ← Effort.ofExcept id (function.run job.reduceView groups {})
          pure (task.counters, task.emitted.toList)

/-- Runs a map task for each list of records. What goes to the shuffle is
answered, and everything else is written. -/
def mapAll (registry : Registry) (job : Job) (functions : List MapFunction) :
    Nat → Counters → List (List Pair) → Effort (Counters × List Pair)
  | _, counters, [] => pure (counters, [])
  | index, counters, records :: rest => do
      let run := FusedRun.ofFunctions functions job.options
      let task ← Effort.ofExcept ChainError.failure
          (run.runAll records ({} : Task))
      let counters := counters.merge task.counters
      writeAll job .map index task.named.toList
      if job.hasReduce then
        let (combined, pairs) ← combine registry job task.emitted.toList
        let (counters, others) ←
          mapAll registry job
          functions (index + 1) (counters.merge combined) rest
        pure (counters, pairs ++ others)
      else
        writeOutput job .map index mainOutput task.emitted.toList
        mapAll registry job functions (index + 1) counters rest

/-! ## Shuffle -/

/-- The partition of a key, by the hash of its text. The number of partitions is
taken as a word of 32 bits. -/
def partitionOf (count : Nat) (key : Json) : Nat :=
  (SipHash.ofText key.text).toNat % max (count % UInt32.size) 1

def partitions (count : Nat) (pairs : List Pair) : List (List Pair) :=
  let placed := pairs.map fun pair => (partitionOf count pair.key, pair)
  (List.range count).map fun index =>
    (placed.filter fun entry => entry.1 = index).map fun entry => entry.2

def shufflePath (directory : Path) (index : Nat) : Path :=
  directory.child ("shuffle-" ++ Text.natText index ++ "." ++
    RecordFormat.intermediate.ending)

def writeShuffle (directory : Path) : Nat → List (List Pair) →
    Effort (List Path)
  | _, [] => pure []
  | index, pairs :: rest => do
      let path := shufflePath directory index
      Effort.ofStoreM (RecordFormat.intermediate.save path pairs)
      let paths ← writeShuffle directory (index + 1) rest
      pure (path :: paths)

/-! ## Reduce tasks -/

def reduceAll (registry : Registry) (job : Job) (reducer : String) :
    Nat → Counters → List Path → Effort Counters
  | _, counters, [] => pure counters
  | index, counters, path :: rest => do
      let pairs ← (Effort.ofStoreM (RecordFormat.intermediate.load path)).within
        ("leyendo partición " ++ path.text)
      match registry.findReduce reducer with
      | .error error => throw error.failure
      | .ok function =>
          let groups := Group.ofPairs (orderOf job) pairs
          let task ← Effort.ofExcept id (function.run job.reduceView groups {})
          writeAll job .reduce index task.named.toList
          writeOutput job .reduce index mainOutput task.emitted.toList
          reduceAll registry job reducer (index + 1)
            (counters.merge task.counters) rest

/-! ## Jobs -/

def runTasks (registry : Registry) (job : Job)
    (inputs : List (List Pair)) : Effort Counters :=
  match registry.findMaps job.maps with
  | .error error => throw error.failure
  | .ok functions => do
      let (counters, pairs) ← mapAll registry job functions 0 .empty inputs
      match job.reducer with
      | none => pure counters
      | some reducer =>
          let directory := job.output.location.child temporaryDirectory
          Effort.ofStoreM (Store.makeDirectories directory)
          let paths ← writeShuffle directory 0
              (partitions (max job.reduceTasks 1) pairs)
          let counters ← reduceAll registry job reducer 0 counters paths
          let _ ← Effort.ofStoreM (Store.delete directory true)
          pure counters

def readAll (format : RecordFormat) : List Path → Effort (List (List Pair))
  | [] => pure []
  | path :: rest => do
      let pairs ← (Effort.ofStoreM (format.load path)).within ("leyendo " ++
          path.text)
      let others ← readAll format rest
      pure (pairs :: others)

def attempt {α : Type} (work : Effort α) : Effort (Except Failure α) :=
  fun store =>
  let (result, store) := work store
  (.ok result, store)

/-- The most lists of 24 bytes that lie in one piece of memory. -/
def partitionLimit : Nat := 0x7fffffffffffffff / 24

def outgrowsMemory (job : Job) : Bool := partitionLimit < max job.reduceTasks 1

def outOfMemory : Failure :=
  { headline := { text := "capacity overflow" }, brokenOff := true }

/-- Runs the tasks of a job, whose partitions are laid out first, and answers
what they come to. -/
def tryTasks (registry : Registry) (job : Job) (inputs : List (List Pair)) :
    Effort (Except Failure Counters) :=
  if outgrowsMemory job then throw outOfMemory
  else attempt (runTasks registry job inputs)

/-- Runs a job under an id. It is refused when a function is not known or its
input cannot be read; what fails later is told in the report. -/
def runJob (registry : Registry) (id : String) (job : Job) : Effort JobReport :=
  do
  if !(missing registry job).isEmpty then
    throw (.ofText ("funciones no registradas: " ++
      String.intercalate ", " (missing registry job)))
  let paths ← (Effort.ofExcept IoError.failure
    (job.input.files (← getThe Store))).within ("listando entrada " ++
    job.input.location.text)
  let inputs ← readAll job.input.format paths
  Effort.ofStoreM (Store.makeDirectories job.output.location)
  match ← tryTasks registry job inputs with
  | .ok counters =>
      let mark := job.output.location.child successMark
      Effort.ofStoreM (Store.change fun store => store.write mark (.text ""))
      pure { id, status := .succeeded, counters }
  | .error failure => pure { id, status := .failed, error := some failure.full }

end Engine

end JobChain
