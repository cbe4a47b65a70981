import JobChain.ChainInfo
import JobChain.Command
import JobChain.Execution
import JobChain.Http

/-!
# The client

Does what a command asks for: compiles and runs chains on the files around it,
and puts questions about other chains to a service.
-/

namespace JobChain.Client

/-! ## Reports -/

/-- What a command prints, and how it ends. -/
structure Report where
  lines : List String := []
  failure? : Option Failure := none
  usage : List String := []
  code : UInt8 := 0
  deriving DecidableEq

namespace Report

def ofFailure (failure : Failure) : Report :=
  { failure? := some failure, code := 1 }

def unreachable (address : String) : Report :=
  .ofFailure (.ofText ("error sending request for url (" ++ address ++ ")"))

def errorLines (report : Report) : List String :=
  match report.failure? with
  | none => []
  | some failure =>
      let causes := match failure.causes with
        | [] => []
        | causes => ["", "Caused by:"] ++ causes.map fun note =>
            "    " ++ note.text
      ("Error: " ++ failure.headline.text) :: causes

end Report

/-- What a command comes to: it is done on files, or a service is asked. -/
inductive Errand where
  | done (report : Report) (store : Store)
  | ask (request : HttpRequest) (report : HttpResponse → Report)

structure Setting where
  registry : Registry
  home : Option String := none
  now : Timestamp

/-! ## Lines -/

def jobLines (run : JobRun) : List String :=
  ("  job-" ++ Text.natText run.ordinal ++ " [" ++ run.name ++ "]: " ++
      run.status.text ++ " -> " ++ run.location.text)
    :: run.counters.sums.map fun (group, name, value) =>
      "      " ++ group ++ "." ++ name ++ " = " ++ Text.natText value

def chainLines (info : ChainInfo) : List String :=
  ["Cadena:", "  id: " ++ info.id, "  nombre: " ++ info.name,
    "  estado: " ++ info.status.text, "  salida: " ++ info.output.text,
    "  rastreo de caminos: " ++ toString info.trackPaths]
  ++ info.jobs.flatMap jobLines
  ++ (info.error.map fun error => "  error: " ++ error).toList
  ++ (info.exitCode.map fun code =>
      "  código de salida: " ++ String.ofList (Text.intChars code)).toList

def resultLines (results : ChainResults) : List String :=
  ("Resultados de " ++ results.chain ++ " en " ++ results.output.text ++ ":")
    :: if results.files.isEmpty then ["  (sin archivos)"]
       else results.files.map fun file => "  " ++ file

def failedLines (outcome : ChainOutcome) : List String :=
  match outcome.failedJob? with
  | none => []
  | some run =>
      ["Falló job-" ++ Text.natText run.ordinal ++ " [" ++ run.name ++ "]: "
        ++ outcome.error.getD ""]

/-! ## On files -/

def textAt (store : Store) (path : Path) : Except IoError String :=
  match store.read path with
  | .error error => .error (.store error)
  | .ok (.raw _) => .error .notText
  | .ok (.text words) => .ok words

def load (store : Store) (path : Path) : Except Failure ChainRequest :=
  match textAt store path with
  | .error error =>
      .error (error.failure.within ("no se pudo leer " ++ path.text))
  | .ok text =>
      (ChainRequest.decoder.ofText text).mapError fun _ =>
        IoError.notJson.failure.within ("cadena inválida en " ++ path.text)

def planReport (setting : Setting) (store : Store)
    (request : ChainRequest) : Report :=
  let jobs := do
    let chain ← request.chain
    (chain.compile store setting.home request.dataset).2
  match jobs with
  | .error error => .ofFailure error.failure
  | .ok jobs => { lines := [(Json.array (jobs.map Job.toJson)).prettyText] }

/-- Files, and what was printed while work was done on them. -/
structure Desk where
  store : Store
  lines : List String := []

def Desk.place : HasStore Desk :=
  ⟨Desk.store, fun store desk => { desk with store }⟩

/-- The surroundings of a run that prints how its jobs stand; it never shows
their ids. -/
def surroundings (setting : Setting) : Surroundings Desk :=
  .onStore Desk.place setting.registry (pure "")
    (fun run => modify fun desk =>
      { desk with lines := desk.lines ++ jobLines run })
    (fun _ => pure ()) (pure setting.now)

def runHere (setting : Setting) (store : Store)
    (request : ChainRequest) : Report × Store :=
  match request.chain with
  | .error error => (.ofFailure error.failure, store)
  | .ok chain =>
      let (result, desk) :=
        (chain.execute (surroundings setting) Desk.place setting.home
          request.dataset request.overwrite).run { store }
      let report : Report := match result with
        | .error error =>
            { Report.ofFailure error.failure with lines := desk.lines }
        | .ok outcome =>
            { lines := desk.lines ++ failedLines outcome,
              code := UInt8.ofNat outcome.exitCode }
      (report, desk.store)

/-! ## By a service -/

def chainsTarget : String := "/api/v1/chains"

def decoded {α : Type} (decoder : Decoder α) (lines : α → List String)
    (response : HttpResponse) : Report :=
  match decoder.ofText response.body.toText with
  | .ok value => { lines := lines value }
  | .error _ =>
      .ofFailure
        ((IoError.notJson.failure).within "error decoding response body")

def submitReport (response : HttpResponse) : Report :=
  if response.isSuccess then
    decoded ChainInfo.decoder
      (fun info => "Cadena aceptada:" :: chainLines info) response
  else
    { lines := ["El master rechazó la cadena (" ++ response.statusText ++ "): "
        ++ response.body.toText]
      code := 1 }

def statusReport (id : String) (response : HttpResponse) : Report :=
  if response.isSuccess then decoded ChainInfo.decoder chainLines response
  else { lines := ["No se encontró la cadena con id " ++ id], code := 1 }

def resultsReport (id : String) (response : HttpResponse) : Report :=
  if response.isSuccess then decoded ChainResults.decoder resultLines response
  else { lines := ["No hay resultados para la cadena " ++ id], code := 1 }

/-! ## Commands -/

def withRequest (store : Store) (file : String)
    (errand : ChainRequest → Errand) : Errand :=
  match load store ⟨file⟩ with
  | .error failure => .done (.ofFailure failure) store
  | .ok request => errand request

def errandOf (setting : Setting) (store : Store) (command : Command) : Errand :=
  match command.verb with
  | .submit =>
      withRequest store command.operand fun request =>
        .ask (.postJson chainsTarget request.toJson) submitReport
  | .status =>
      .ask (.get (chainsTarget ++ "/" ++ command.operand))
        (statusReport command.operand)
  | .results =>
      .ask (.get (chainsTarget ++ "/" ++ command.operand ++ "/results"))
        (resultsReport command.operand)
  | .plan =>
      withRequest store command.operand fun request =>
        .done (planReport setting store request) store
  | .run =>
      withRequest store command.operand fun request =>
        let (report, store) := runHere setting store request
        .done report store

def answer (setting : Setting) (store : Store) (words : List String) : Errand :=
  match CommandLine.read words with
  | .command command => errandOf setting store command
  | .help topic => .done { lines := topic.lines } store
  | .misused => .done { usage := HelpTopic.all.lines, code := 2 } store

end JobChain.Client
