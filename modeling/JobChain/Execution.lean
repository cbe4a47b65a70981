import JobChain.Chain
import JobChain.Engine

/-!
# Execution

Runs the jobs of a chain in strict order. A job is not sent before the one
before it has ended well, and the first failure ends the chain. What a job has
left for the next is deleted as soon as that one has ended well.
-/

namespace JobChain

/-- What surrounds a run of a chain: an engine, files, and those who are told
about it. -/
structure Surroundings (σ : Type) where
  isThere : Path → StateM σ Bool
  makeDirectories : Path → ExceptT IoError (StateM σ) Unit
  delete : Path → ExceptT IoError (StateM σ) Bool
  list : String → ExceptT IoError (StateM σ) (List Path)
  runJob : Job → ExceptT Failure (StateM σ) JobReport
  publish : Job → ExceptT IoError (StateM σ) Unit
  observe : JobRun → StateM σ Unit
  tell : LogLine → StateM σ Unit
  now : StateM σ Timestamp

namespace Execution

variable {σ : Type}

/-! ## Behind a job -/

def deleteEach (around : Surroundings σ) : List Path → StateM σ Unit
  | [] => pure ()
  | path :: rest => do
      match ← (around.delete path).run with
      | .ok _ => around.tell ⟨.debug, "intermedio borrado: " ++ path.text⟩
      | .error error =>
          let error := ChainError.cleanup (path.text ++ ": " ++ error.message)
          around.tell ⟨.warning, error.message⟩
      deleteEach around rest

def deleteMatching (around : Surroundings σ) : List String → StateM σ Unit
  | [] => pure ()
  | pattern :: rest => do
      match ← (around.list pattern).run with
      | .ok paths => deleteEach around paths
      | .error error =>
          let error := ChainError.cleanup (pattern ++ ": " ++ error.message)
          around.tell ⟨.warning, error.message⟩
      deleteMatching around rest

def intermediates (job : Job) : List String :=
  [graphOutput, mainOutput, successMark].map fun front =>
    Glob.patternIn job.output.location (front ++ "*")

def finish (around : Surroundings σ) (job : Job) : StateM σ Unit :=
  if job.publishes then do
    match ← (around.publish job).run with
    | .ok () => pure ()
    | .error error =>
        let place := job.output.location.text
        let error := ChainError.cleanup
          ("finalización de " ++ place ++ " falló: " ++ error.message)
        around.tell ⟨.warning, error.message⟩
  else pure ()

/-! ## Jobs in order -/

def takeReport (index : Nat) (job : Job) (run : JobRun) :
    Except Failure JobReport → JobRun × Option ChainError
  | .error failure => (run, some (.submission index job.name failure.full))
  | .ok report =>
      ({ run with id := some report.id, counters := report.counters },
        report.failure?.map (.execution index job.name))

def runOne (around : Surroundings σ) (total index : Nat) (job : Job) :
    StateM σ (JobRun × Option ChainError) := do
  let number := Text.natText (index + 1)
  around.tell ⟨.info,
    "ejecutando job " ++ number ++ " de " ++ Text.natText total ++ ": " ++
    job.name⟩
  around.tell ⟨.info, "ubicación de datos del job: " ++
    job.output.location.text⟩
  let run := { JobRun.pending job with status := .running, started := some (← around.now) }
  around.observe run
  let report ← (around.runJob job).run
  if report.isOk then finish around job
  let (run, error?) := takeReport index job run report
  let run := { run with
    finished := some (← around.now)
    status := if error?.isSome then .failed else .succeeded
    error := error?.map ChainError.message }
  around.observe run
  pure (run, error?)

/-- Runs jobs from an index on, behind another job whose data they no longer
need once the first of them has ended well. -/
def runFrom (around : Surroundings σ) (total : Nat) :
    Nat → Option Job → List Job → StateM σ ChainOutcome
  | _, _, [] => do
      around.tell ⟨.info, "cadena terminada: " ++ Text.natText total ++
        " job(s) ok"⟩
      pure { runs := [] }
  | index, previous?, job :: rest => do
      match ← runOne around total index job with
      | (run, some error) =>
          around.tell ⟨.error, error.message⟩
          let left := Text.natText (total - index - 1)
          around.tell ⟨.error,
            "error en la cadena: se cancelan los " ++ left ++
            " job(s) restantes"⟩
          pure
            { runs := run :: rest.map JobRun.pending
              failedIndex := some index
              error := some error.message }
      | (run, none) =>
          match previous? with
          | some previous => deleteMatching around (intermediates previous)
          | none => pure ()
          let outcome ← runFrom around total (index + 1) (some job) rest
          pure { outcome with runs := run :: outcome.runs }

def clearOutput (around : Surroundings σ) (output : Path) :
    ExceptT IoError (StateM σ) Unit := do
  if ← around.isThere output then
    around.tell ⟨.info, "borrando salida previa " ++ output.text⟩
    let _ ← around.delete output

def run (around : Surroundings σ) (jobs : List Job) (output : Path)
    (overwrite trackPaths : Bool) :
    ExceptT IoError (StateM σ) ChainOutcome := do
  if overwrite then clearOutput around output
  if trackPaths then
    around.tell ⟨.warning,
      "el cálculo de caminos está activo para esta cadena (caro en espacio y tiempo)"⟩
  if jobs.isEmpty then pure { runs := [] }
  else
    around.makeDirectories output
    runFrom around jobs.length 0 none jobs

end Execution

/-! ## On a store -/

structure HasStore (σ : Type) where
  store : σ → Store
  withStore : Store → σ → σ

namespace HasStore

variable {σ α ε : Type}

def ask (place : HasStore σ) (question : Store → α) : StateM σ α := fun state =>
  (question (place.store state), state)

def work (place : HasStore σ)
    (work : ExceptT ε (StateM Store) α) : ExceptT ε (StateM σ) α :=
  fun state =>
    let (result, store) := work (place.store state)
    (result, place.withStore store state)

end HasStore

def Surroundings.onStore {σ : Type} (place : HasStore σ) (registry : Registry)
    (newId : StateM σ String) (observe : JobRun → StateM σ Unit)
    (tell : LogLine → StateM σ Unit)
    (now : StateM σ Timestamp) : Surroundings σ where
  isThere path := place.ask fun store => store.has path
  makeDirectories path := place.work (Store.makeDirectories path)
  delete path := place.work (Store.delete path true)
  list pattern := place.work (do (← getThe Store).listing pattern)
  runJob job := do place.work (Engine.runJob registry (← newId) job)
  publish job := do place.work (Manifest.leave job.output.location (← now))
  observe := observe
  tell := tell
  now := now

def Chain.execute {σ : Type} (chain : Chain) (around : Surroundings σ)
    (place : HasStore σ) (home? : Option String) (dataset : Dataset)
    (overwrite : Bool) : ExceptT ChainError (StateM σ) ChainOutcome := do
  let (log, jobs) := chain.compile (place.store (← getThe σ)) home? dataset
  log.forM fun line => around.tell line
  let jobs ← ExceptT.mk (pure jobs)
  (Execution.run around jobs dataset.output overwrite chain.trackPaths).adapt
    ChainError.io

end JobChain
