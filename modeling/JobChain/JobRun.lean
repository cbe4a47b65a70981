import JobChain.Counters
import JobChain.Job
import JobChain.Timestamp

/-!
# Runs of jobs

What an engine tells about a job, how a job stands within a run of its chain,
and how such a run came out.
-/

namespace JobChain

inductive JobStatus where
  | pending
  | running
  | succeeded
  | failed
  deriving DecidableEq, Repr

namespace JobStatus

def names : List (String × JobStatus) :=
  [("PENDING", .pending), ("RUNNING", .running), ("SUCCEEDED", .succeeded),
    ("FAILED", .failed)]

def toJson (status : JobStatus) : Json := nameIn names status

def decoder : Decoder JobStatus := Decoder.oneOf names

def text : JobStatus → String
  | .pending => "Pending"
  | .running => "Running"
  | .succeeded => "Succeeded"
  | .failed => "Failed"

end JobStatus

/-! ## Reports -/

/-- What an engine tells at the end of a job. -/
structure JobReport where
  id : String
  status : JobStatus
  counters : Counters := SortedMap.empty
  error : Option String := none
  deriving DecidableEq

namespace JobReport

def failure? (report : JobReport) : Option String :=
  if report.status = .succeeded then none
  else some (report.error.getD ("terminó en estado " ++ report.status.text))

def toJson (report : JobReport) : Json :=
  .ofFields <|
    [("job_id", .string report.id), ("status", report.status.toJson),
      ("counters", report.counters.toJson)]
    ++ optionalField "error" .string report.error

end JobReport

/-! ## Runs -/

structure JobRun where
  ordinal : Nat
  name : String
  status : JobStatus
  location : Path
  id : Option String := none
  counters : Counters := SortedMap.empty
  started : Option Timestamp := none
  finished : Option Timestamp := none
  error : Option String := none
  deriving DecidableEq

namespace JobRun

def pending (job : Job) : JobRun :=
  { ordinal := job.ordinal, name := job.name, status := .pending,
    location := job.output.location }

def toJson (run : JobRun) : Json :=
  .ofFields <|
    [("ordinal", .ofNat run.ordinal), ("name", .string run.name),
      ("status", run.status.toJson), ("location", run.location.toJson)]
    ++ optionalField "job_id" .string run.id
    ++ [("counters", run.counters.toJson),
      ("started_at", Json.ofOption Timestamp.toJson run.started),
      ("finished_at", Json.ofOption Timestamp.toJson run.finished)]
    ++ optionalField "error" .string run.error

def decoder : Decoder JobRun :=
  Fields.decode <| JobRun.mk
    <$> .required "ordinal" Decoder.nat
    <*> .required "name" Decoder.text
    <*> .required "status" JobStatus.decoder
    <*> .required "location" Path.decoder
    <*> .optional "job_id" Decoder.text.option none
    <*> .optional "counters" Counters.decoder .empty
    <*> .nullable "started_at" Timestamp.decoder
    <*> .nullable "finished_at" Timestamp.decoder
    <*> .optional "error" Decoder.text.option none

end JobRun

/-! ## Outcomes -/

/-- How a run of a chain came out. -/
structure ChainOutcome where
  runs : List JobRun
  failedIndex : Option Nat := none
  error : Option String := none
  deriving DecidableEq

namespace ChainOutcome

def succeeded (outcome : ChainOutcome) : Bool := outcome.failedIndex.isNone

def failedJob? (outcome : ChainOutcome) : Option JobRun :=
  outcome.failedIndex.bind fun index => outcome.runs[index]?

/-- Zero for a chain that ended well, and otherwise one more than the index of
the failed job, as long as that fits in 31 bits. -/
def exitCode (outcome : ChainOutcome) : Nat :=
  match outcome.failedIndex with
  | none => 0
  | some index => min (index + 1) 0x7FFFFFFF

def counters (outcome : ChainOutcome) : Counters :=
  outcome.runs.foldl (fun total run => total.merge run.counters) .empty

def decoder : Decoder ChainOutcome :=
  Fields.decode <| ChainOutcome.mk
    <$> .required "runs" JobRun.decoder.list
    <*> .nullable "failed_index" Decoder.nat
    <*> .optional "error" Decoder.text.option none

end ChainOutcome

end JobChain
