import JobChain.JobRun

/-!
# Chains on record

What is known about a chain that was accepted: how it stands and how each of its
jobs stands.
-/

namespace JobChain

inductive ChainStatus where
  | accepted
  | running
  | succeeded
  | failed
  deriving DecidableEq, Repr

namespace ChainStatus

def names : List (String × ChainStatus) :=
  [("ACCEPTED", .accepted), ("RUNNING", .running), ("SUCCEEDED", .succeeded),
    ("FAILED", .failed)]

def toJson (status : ChainStatus) : Json := nameIn names status

def decoder : Decoder ChainStatus := Decoder.oneOf names

def text : ChainStatus → String
  | .accepted => "Accepted"
  | .running => "Running"
  | .succeeded => "Succeeded"
  | .failed => "Failed"

end ChainStatus

structure ChainInfo where
  id : String
  name : String
  status : ChainStatus
  jobs : List JobRun
  output : Path
  trackPaths : Bool
  failedIndex : Option Nat := none
  error : Option String := none
  exitCode : Option Int := none
  submitted : Timestamp
  started : Option Timestamp := none
  finished : Option Timestamp := none
  deriving DecidableEq

namespace ChainInfo

/-! ## Changes -/

/-- The runs with another one in the place of the first of its ordinal. -/
def replaceRun (run : JobRun) : List JobRun → List JobRun
  | [] => []
  | job :: rest => if job.ordinal = run.ordinal then run :: rest else job ::
      replaceRun run rest

def updateJob (info : ChainInfo) (run : JobRun) : ChainInfo :=
  { info with jobs := replaceRun run info.jobs }

def start (info : ChainInfo) (now : Timestamp) : ChainInfo :=
  { info with status := .running, started := some now }

def applyOutcome (info : ChainInfo) (outcome : ChainOutcome)
    (now : Timestamp) : ChainInfo :=
  { info with
    jobs := outcome.runs
    failedIndex := outcome.failedIndex
    error := outcome.error
    exitCode := some outcome.exitCode
    status := if outcome.succeeded then .succeeded else .failed
    finished := some now }

/-- A chain that could not begin. -/
def fail (info : ChainInfo) (error : String) (now : Timestamp) : ChainInfo :=
  { info with status := .failed, error := some error, finished := some now }

/-! ## As JSON -/

def toJson (info : ChainInfo) : Json :=
  .ofFields
    [("id", .string info.id), ("name", .string info.name),
      ("status", info.status.toJson),
      ("jobs", .array (info.jobs.map JobRun.toJson)),
      ("output_dir", info.output.toJson),
      ("path_enabled", .bool info.trackPaths),
      ("failed_index", Json.ofOption Json.ofNat info.failedIndex),
      ("error", Json.ofOption .string info.error),
      ("exit_code", Json.ofOption Json.ofInt info.exitCode),
      ("submitted_at", info.submitted.toJson),
      ("started_at", Json.ofOption Timestamp.toJson info.started),
      ("finished_at", Json.ofOption Timestamp.toJson info.finished)]

def codeDecoder : Decoder Int
  | _, .number (some n) =>
      match n.toSigned?.filter fun code => decide (-0x80000000 ≤ code ∧
        code < 0x80000000) with
      | some code => .ok code
      | none => .error .misshapen
  | _, document => .error (Decoder.mismatch document)

def decoder : Decoder ChainInfo :=
  Fields.decode <| ChainInfo.mk
    <$> .required "id" Decoder.text
    <*> .required "name" Decoder.text
    <*> .required "status" ChainStatus.decoder
    <*> .required "jobs" JobRun.decoder.list
    <*> .required "output_dir" Path.decoder
    <*> .required "path_enabled" Decoder.bool
    <*> .nullable "failed_index" Decoder.nat
    <*> .nullable "error" Decoder.text
    <*> .nullable "exit_code" codeDecoder
    <*> .required "submitted_at" Timestamp.decoder
    <*> .nullable "started_at" Timestamp.decoder
    <*> .nullable "finished_at" Timestamp.decoder

end ChainInfo

end JobChain
