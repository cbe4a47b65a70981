import JobChain.Job
import JobChain.OutputFile

/-!
# Assembly

Wires the blocks of a plan into one chain of jobs. Each job but the first reads
what the one before it has left, and only the last one writes in the format that
was asked for.
-/

namespace JobChain

structure Assembly where
  dataset : Dataset
  options : Options
  trackPaths : Bool
  package : Path
  total : Nat
  deriving DecidableEq

namespace Assembly

/-! ## Options -/

def defaultCodec : String := "deflate"

/-- Adds the options of stages from a step on, each under scoped names. -/
def addScoped (options : Options) (step : Nat) : List Stage → Options
  | [] => options
  | stage :: rest =>
      addScoped (options.mergeScoped stage.options step) (step + 1) rest

def addShuffle (options : Options) : Options :=
  (options.setIfAbsent Options.compress "true").setIfAbsent
    Options.compressCodec defaultCodec

def optionsOf (assembly : Assembly) (block : Block) : Options :=
  let options :=
    (addScoped assembly.options 0 block.stages).setSwitch Options.trackPaths
      assembly.trackPaths
  if block.hasReduce then addShuffle options else options

/-- The number of reduce tasks, at least one for a job that has a reduce
side. -/
def reduceTasksOf (options : Options) (block : Block) : Nat :=
  if block.hasReduce then max (options.count Options.reduceTasks 1) 1 else 0

/-! ## Wiring -/

def inputOf (dataset : Dataset) (ordinal : Nat) : InputSpec :=
  match ordinal with
  | 0 => { location := dataset.input, format := dataset.inputFormat }
  | before + 1 =>
      { location := dataset.jobLocation before, format := .intermediate }

def outputOf (assembly : Assembly) (ordinal : Nat) : OutputSpec :=
  let format :=
    if ordinal + 1 = assembly.total then assembly.dataset.outputFormat
    else .intermediate
  { location := assembly.dataset.jobLocation ordinal, format
    named := [⟨sideOutput, assembly.dataset.sideFormat⟩,
      ⟨graphOutput, format⟩] }

def checkAll : List Stage → Except ShapeError Unit
  | [] => .ok ()
  | stage :: rest =>
      match stage.check with
      | .error error => .error error
      | .ok () => checkAll rest

def jobOf (assembly : Assembly) (block : Block) : Job :=
  let options := assembly.optionsOf block
  let reduce? := block.reduceStage?
  { ordinal := block.ordinal
    name := block.name
    stages := block.stages
    input := inputOf assembly.dataset block.ordinal
    output := assembly.outputOf block.ordinal
    options
    keyOrder := reduce?.bind Stage.keyOrder
    combiner := reduce?.bind Stage.combine
    reducer := reduce?.bind Stage.reduce
    reduceTasks := reduceTasksOf options block
    package := assembly.package }

def assemble (assembly : Assembly) (block : Block) : Except ShapeError Job :=
  if block.stages.isEmpty then .error (.noStages block.ordinal)
  else
    match checkAll block.stages with
    | .error error => .error error
    | .ok () => .ok (assembly.jobOf block)

def assembleAll (assembly : Assembly) :
    List Block → Except ShapeError (List Job)
  | [] => .ok []
  | block :: rest =>
      match assembly.assemble block with
      | .error error => .error error
      | .ok job => (assembleAll assembly rest).map (job :: ·)

end Assembly

end JobChain
