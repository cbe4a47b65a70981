import JobChain.ChainInfo
import JobChain.Execution
import JobChain.Http

/-!
# The service

Takes chains over the network, runs them in the background and tells how they
stand. All paths of a request lie below the data directory of the service.
-/

namespace JobChain

structure Service where
  store : Store
  chains : List ChainInfo := []
  /-- The ids of the chains whose runs have broken off in the engine. -/
  lost : List String := []
  deriving DecidableEq

structure ServiceSetting where
  registry : Registry
  data : Path
  home : Option String := none
  newJobId : StateM Service String
  now : StateM Service Timestamp

namespace Service

def place : HasStore Service :=
  ⟨Service.store, fun store service => { service with store }⟩

def find? (service : Service) (id : String) : Option ChainInfo :=
  service.chains.find? fun info => info.id = id

def add (service : Service) (info : ChainInfo) : Service :=
  { service with chains := service.chains ++ [info] }

def update (id : String) (change : ChainInfo → ChainInfo)
    (service : Service) : Service :=
  { service with
    chains := service.chains.map fun info =>
      if info.id = id then change info else info }

def isLost (service : Service) (id : String) : Bool := service.lost.contains id

def lose (id : String) (service : Service) : Service :=
  { service with lost := id :: service.lost }

/-- Puts on record what a run tells of its chain. A run that has broken off
tells nothing. -/
def report (id : String) (change : ChainInfo → ChainInfo)
    (service : Service) : Service :=
  if service.isLost id then service else service.update id change

@[simp] theorem isLost_lose_self (id : String) (service : Service) :
    (service.lose id).isLost id = true := by
  simp [lose, isLost]

@[simp] theorem isLost_report (service : Service) (id : String)
    (change : ChainInfo → ChainInfo) (other : String) :
    (service.report id change).isLost other = service.isLost other := by
  unfold report
  split <;> rfl

@[simp] theorem store_report (service : Service) (id : String)
    (change : ChainInfo → ChainInfo) :
    (service.report id change).store = service.store := by
  unfold report
  split <;> rfl

/-! ## Accepting -/

inductive Refusal where
  | notConfined (path : Path)
  | badChain (error : ChainError)
  deriving DecidableEq, Repr

namespace Refusal

def status : Refusal → Nat
  | .badChain (.package _) | .badChain (.io _) => 500
  | _ => 400

def message : Refusal → String
  | .notConfined path =>
      "la ruta '" ++ path.text ++
        "' debe ser relativa al directorio de datos y sin '..'"
  | .badChain error => error.message

end Refusal

structure Accepted where
  id : String
  request : ChainRequest
  trackPaths : Bool
  jobs : List Job
  deriving DecidableEq

/-- Takes a request whose paths are confined, and compiles its chain. -/
def accept (setting : ServiceSetting) (store : Store) (id : String)
    (request : ChainRequest) : Except Refusal Accepted :=
  match [request.dataset.input, request.dataset.output].find? fun path =>
    !path.isConfined with
  | some path => .error (.notConfined path)
  | none =>
      let request := request.rebase setting.data
      match request.chain with
      | .error error => .error (.badChain error)
      | .ok chain =>
          match (chain.compile store setting.home request.dataset).2 with
          | .error error => .error (.badChain error)
          | .ok jobs =>
              .ok { id, request, trackPaths := chain.trackPaths, jobs }

def Accepted.info (accepted : Accepted) (now : Timestamp) : ChainInfo :=
  { id := accepted.id
    name := accepted.request.name
    status := .accepted
    jobs := accepted.jobs.map JobRun.pending
    output := accepted.request.dataset.output
    trackPaths := accepted.trackPaths
    submitted := now }

/-! ## Running -/

/-- Sends a job to an engine. The run of a chain goes under with a call that
breaks off. -/
def sendJob (runJob : Job → ExceptT Failure (StateM Service) JobReport)
    (id : String) (job : Job) : ExceptT Failure (StateM Service) JobReport :=
  ExceptT.mk do
    let answer ← (runJob job).run
    if Failure.breaksOff answer then modify (lose id)
    pure answer

theorem run_sendJob (runJob : Job → ExceptT Failure (StateM Service) JobReport)
    (id : String) (job : Job) (service : Service) :
    (sendJob runJob id job).run service =
      (((runJob job).run service).1,
        if Failure.breaksOff ((runJob job).run service).1 then
          ((runJob job).run service).2.lose id
        else ((runJob job).run service).2) := by
  change (do
    let answer ← (runJob job).run
    if Failure.breaksOff answer then modify (lose id)
    pure answer : StateM Service (Except Failure JobReport)) service = _
  simp only [bind, StateT.bind]
  cases (runJob job).run service with
  | mk answer after =>
      cases hbreaks : Failure.breaksOff answer <;> simp only [hbreaks] <;> rfl

def surroundings (setting : ServiceSetting)
    (id : String) : Surroundings Service :=
  let around : Surroundings Service :=
    .onStore place setting.registry setting.newJobId
      (fun run => modify (report id fun info => info.updateJob run))
      (fun _ => pure ()) setting.now
  { around with runJob := sendJob around.runJob id }

def enter (setting : ServiceSetting) (accepted : Accepted) :
    StateM Service ChainInfo := do
  let info := accepted.info (← setting.now)
  modify fun service => service.add info
  pure info

def runChain (setting : ServiceSetting) (accepted : Accepted) :
    StateM Service Unit := do
  let started ← setting.now
  modify (report accepted.id fun info => info.start started)
  let around := surroundings setting accepted.id
  let request := accepted.request
  let result ← (Execution.run around accepted.jobs request.dataset.output
    request.overwrite request.trackPaths).run
  let finished ← setting.now
  modify <| report accepted.id fun info =>
    match result with
    | .ok outcome => info.applyOutcome outcome finished
    | .error error => info.fail (ChainError.io error).message finished

/-! ## Answers -/

inductive Route where
  | health
  | chains
  | chain (id : String)
  | results (id : String)
  deriving DecidableEq, Repr

def Route.ofSegments? : List String → Option Route
  | ["", "health"] => some .health
  | ["", "api", "v1", "chains"] => some .chains
  | ["", "api", "v1", "chains", id] =>
      if id = "" then none else some (.chain id)
  | ["", "api", "v1", "chains", id, "results"] =>
      if id = "" then none else some (.results id)
  | _ => none

def notFound : HttpResponse := { status := 404 }

def aboutChain (service : Service) (segment : String)
    (answer : ChainInfo → HttpResponse) : HttpResponse :=
  match HttpRequest.unescape? segment with
  | none =>
      { status := 400,
        body := .text "Invalid URL: Invalid UTF-8 in \x60id\x60" }
  | some id => ((service.find? id).map answer).getD notFound

def resultsOf (service : Service) (info : ChainInfo) : HttpResponse :=
  match ChainResults.collect info.id info.output service.store with
  | .ok results => { status := 200, body := .json results.toJson }
  | .error _ => { status := 500 }

def answerTo (service : Service) : Route → HttpResponse
  | .health => { status := 200, body := .text "ok" }
  | .chains =>
      { status := 200,
        body := .json (.array (service.chains.map ChainInfo.toJson)) }
  | .chain segment =>
      service.aboutChain segment fun info =>
        { status := 200, body := .json info.toJson }
  | .results segment => service.aboutChain segment service.resultsOf

/-- Reads a chain from a request and takes it, unless it has to be refused. -/
def submit (setting : ServiceSetting) (service : Service) (id : String)
    (request : HttpRequest) : Except HttpResponse Accepted :=
  match request.decodeBody ChainRequest.decoder with
  | .error response => .error response
  | .ok chain =>
      (accept setting service.store id chain).mapError fun refusal =>
        { status := refusal.status, body := .text refusal.message }

/-- Answers a request, and runs the chain that it brought. The id is for a new
chain. -/
def handle (setting : ServiceSetting) (id : String) (request : HttpRequest) :
    StateM Service HttpResponse := do
  let service ← get
  match Route.ofSegments? request.segments with
  | none => pure notFound
  | some route =>
      if request.method = "GET" then pure (service.answerTo route)
      else if request.method = "HEAD" then
        pure { service.answerTo route with body := .text "" }
      else if request.method = "POST" ∧ route = .chains then
        match submit setting service id request with
        | .error response => pure response
        | .ok accepted =>
            let info ← enter setting accepted
            runChain setting accepted
            pure { status := 200, body := .json info.toJson }
      else pure { status := 405 }

end Service

end JobChain
