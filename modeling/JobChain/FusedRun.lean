import JobChain.Relay

/-!
# Fused runs

The map functions of a job run one behind another in one task, each on what the
one before has written, without files between them. All but the last write at
most one record for each that they get.
-/

namespace JobChain

/-- A map function at work: its state so far and the options that it sees. -/
structure FusedStage where
  function : MapFunction
  state : function.State
  options : Options

variable {τ : Type} [Context τ]

namespace FusedStage

def settle (stage : FusedStage) (reply : Reply stage.function.State)
    (relay : Relay τ) : Option Failure × FusedStage × Relay τ :=
  (reply.failure?, { stage with state := reply.state },
    relay.performAll reply.actions)

def setup (stage : FusedStage) (relay : Relay τ) :
    Option Failure × FusedStage × Relay τ :=
  stage.settle (stage.function.setup relay.options stage.state) relay

def map (stage : FusedStage) (pair : Pair) (relay : Relay τ) :
    Option Failure × FusedStage × Relay τ :=
  stage.settle (stage.function.map relay.options stage.state pair) relay

def cleanup (stage : FusedStage) (relay : Relay τ) :
    Option Failure × FusedStage × Relay τ :=
  stage.settle (stage.function.cleanup relay.options stage.state) relay

end FusedStage

abbrev FusedRun := List FusedStage

namespace FusedRun

/-- The functions of a job before their first call, each with its view of the
job's options. -/
def ofFunctions (functions : List MapFunction) (options : Options) : FusedRun :=
  functions.mapIdx fun step function =>
    { function, state := function.start, options := options.view step }

def view? (run : FusedRun) (step : Nat) : Option Options :=
  run[step]?.map FusedStage.options

def relayFor (stage : FusedStage) (rest : FusedRun) (task : τ) : Relay τ :=
  { options := stage.options, terminal := rest.isEmpty, task }

def setupFrom (step : Nat) : FusedRun → τ → Option ChainError × FusedRun × τ
  | [], task => (none, [], task)
  | stage :: rest, task =>
      match stage.setup (relayFor stage rest task) with
      | (some failure, stage, relay) =>
          (some (.stage step failure), stage :: rest, relay.task)
      | (none, stage, relay) =>
          let (error?, rest, task) := setupFrom (step + 1) rest relay.task
          (error?, stage :: rest, task)

def pump (step : Nat) :
    FusedRun → Relay τ → Option ChainError × FusedRun × Relay τ
  | [], relay =>
      match relay.consume with
      | (some pair, relay) => (none, [], relay.forward (.write pair))
      | (none, relay) => (none, [], relay)
  | stage :: rest, relay =>
      match relay.consume with
      | (none, relay) => (none, stage :: rest, relay)
      | (some pair, relay) =>
          match stage.map pair (relay.enter stage.options rest.isEmpty) with
          | (some failure, stage, relay) =>
              (some (.stage step failure), stage :: rest, relay)
          | (none, stage, relay) =>
              if 1 < relay.emitted then
                (some (.fusion step relay.emitted), stage :: rest, relay)
              else
                let (error?, rest, relay) := pump (step + 1) rest relay
                (error?, stage :: rest, relay)

/-- Closes a number of stages from a step on. What one writes goes through those
behind it. -/
def cleanupFrom :
    (count step : Nat) → FusedRun → τ → Option ChainError × FusedRun × τ
  | 0, _, run, task => (none, run, task)
  | _, _, [], task => (none, [], task)
  | count + 1, step, stage :: rest, task =>
      match stage.cleanup (relayFor stage rest task) with
      | (some failure, stage, relay) =>
          (some (.stage step failure), stage :: rest, relay.task)
      | (none, stage, relay) =>
          if 1 < relay.emitted then
            (some (.fusion step relay.emitted), stage :: rest, relay.task)
          else
            match pump (step + 1) rest relay with
            | (some error, rest, relay) =>
                (some error, stage :: rest, relay.task)
            | (none, rest, relay) =>
                let (error?, rest, task) :=
                  cleanupFrom count (step + 1) rest relay.task
                (error?, stage :: rest, task)

def setup (run : FusedRun) (task : τ) : Option ChainError × FusedRun × τ :=
  setupFrom 0 run task

def map (run : FusedRun) (pair : Pair) (task : τ) :
    Option ChainError × FusedRun × τ :=
  match run with
  | [] => (none, [], task)
  | stage :: rest =>
      let relay : Relay τ := { options := stage.options, task }
      let (error?, run, relay) := pump 0 (stage :: rest) (relay.emit pair)
      (error?, run, relay.task)

def cleanup (run : FusedRun) (task : τ) : Option ChainError × FusedRun × τ :=
  cleanupFrom run.length 0 run task

def mapAll : FusedRun → List Pair → τ → Option ChainError × FusedRun × τ
  | run, [], task => (none, run, task)
  | run, pair :: rest, task =>
      match run.map pair task with
      | (some error, run, task) => (some error, run, task)
      | (none, run, task) => mapAll run rest (Context.perform task .progress)

def runAll (run : FusedRun) (pairs : List Pair)
    (task : τ) : Except ChainError τ :=
  match run.setup task with
  | (some error, _, _) => .error error
  | (none, run, task) =>
      match run.mapAll pairs task with
      | (some error, _, _) => .error error
      | (none, run, task) =>
          match run.cleanup task with
          | (some error, _, _) => .error error
          | (none, _, task) => .ok task

end FusedRun

end JobChain
