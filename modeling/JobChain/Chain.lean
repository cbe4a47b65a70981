import JobChain.Assembly
import JobChain.Package

/-!
# Chains

A chain is a plan together with the options of all its jobs. To compile it is to
wire its blocks into jobs, for which the package of its functions has to be
found.
-/

namespace JobChain

structure Chain where
  plan : Plan := {}
  options : Options
  trackPaths : Bool
  deriving DecidableEq

namespace Chain

/-- A chain without stages, which tracks paths if its options say so. -/
def ofOptions (options : Options) : Chain :=
  { options, trackPaths := options.switch Options.trackPaths false }

/-- A call on a chain that is there before and after it, whatever it answers. -/
abbrev Call := ExceptT ShapeError (StateM Chain) Unit

/-- Works on a copy of the plan, which then takes the plan's place. -/
def onPlan (work : Plan.Work) : Call := do
  let chain ← get
  let plan ← ExceptT.mk (pure (chain.plan.after work))
  set { chain with plan }

def append (stage : Stage) : Call := onPlan (.append stage)

def appendMap (stage : Stage) : Call := onPlan (.appendMap stage)

def appendMapReduce (stage : Stage) : Call := onPlan (.appendMapReduce stage)

def appendAll : List Stage → Call
  | [] => pure ()
  | stage :: rest => do
      append stage
      appendAll rest

theorem onPlan_run (work : Plan.Work) (chain : Chain) : onPlan work chain =
    match chain.plan.after work with
    | .error error => (.error error, chain)
    | .ok plan => (.ok (), { chain with plan }) := by
  change (ExceptT.bindCont (fun plan => set { chain with plan })
    (chain.plan.after work) :
    StateM Chain (Except ShapeError Unit)) chain = _
  cases chain.plan.after work <;> rfl

private theorem appendAll_cons (stage : Stage) (rest : List Stage)
    (chain : Chain) : appendAll (stage :: rest) chain =
      match append stage chain with
      | (.error error, chain) => (.error error, chain)
      | (.ok (), chain) => appendAll rest chain := by
  change (ExceptT.bindCont (fun _ => appendAll rest) (append stage chain).1 :
    StateM Chain (Except ShapeError Unit)) (append stage chain).2 = _
  rcases append stage chain with ⟨_ | _, _⟩ <;> rfl

private theorem appendAll_of_error {chain : Chain} {stages : List Stage}
    {error : ShapeError} (h : chain.plan.appendAll stages = .error error) :
    (appendAll stages chain).1 = .error error := by
  induction stages generalizing chain with
  | nil => cases h
  | cons stage rest ih =>
      rw [Plan.appendAll, Plan.append] at h
      rw [appendAll_cons, append, onPlan_run]
      cases happend : chain.plan.after (.append stage) with
      | error cause => simpa [happend] using h
      | ok plan =>
          rw [happend] at h
          exact @ih { chain with plan } h

private theorem appendAll_of_ok {chain : Chain} {stages : List Stage}
    {plan : Plan} (h : chain.plan.appendAll stages = .ok plan) :
    appendAll stages chain = (.ok (), { chain with plan }) := by
  induction stages generalizing chain with
  | nil => cases h; rfl
  | cons stage rest ih =>
      rw [Plan.appendAll, Plan.append] at h
      rw [appendAll_cons, append, onPlan_run]
      cases happend : chain.plan.after (.append stage) with
      | error cause => simp [happend] at h
      | ok next =>
          rw [happend] at h
          exact @ih { chain with plan := next } h

def assembly (chain : Chain) (dataset : Dataset) (package : Path) : Assembly :=
  { dataset, options := chain.options, trackPaths := chain.trackPaths, package
    total := chain.plan.blocks.length }

/-- The jobs of the chain on a dataset; a chain without stages has none. -/
def compile (chain : Chain) (store : Store) (home? : Option String)
    (dataset : Dataset) : List LogLine × Except ChainError (List Job) :=
  if chain.plan.blocks.isEmpty then ([], .ok [])
  else
    match Package.locate store home? chain.options with
    | (log, .error error) => (log, .error (.package error))
    | (log, .ok package) =>
        match (chain.assembly dataset package).assembleAll chain.plan.blocks
          with
        | .error error => (log, .error (.compilation error))
        | .ok jobs =>
            let text := "cadena compilada en " ++ Text.natText jobs.length ++
              " job(s)"
            (log ++ [⟨.info, text⟩], .ok jobs)

end Chain

/-! ## Requests -/

structure ChainRequest where
  name : String
  stages : List Stage
  dataset : Dataset
  options : Options := SortedMap.empty
  trackPaths : Bool := false
  overwrite : Bool := false
  deriving DecidableEq

namespace ChainRequest

def start (request : ChainRequest) : Chain :=
  let chain := Chain.ofOptions request.options
  if request.trackPaths then { chain with trackPaths := true } else chain

/-- The chain of a request; the first stage that is badly formed is reported. -/
def chain (request : ChainRequest) : Except ChainError Chain :=
  match Chain.appendAll request.stages request.start with
  | (.error error, _) => .error (.compilation error)
  | (.ok (), chain) => .ok chain

private theorem start_eq (request : ChainRequest) :
    request.start =
      { options := request.options
        trackPaths :=
          request.trackPaths ||
            request.options.switch Options.trackPaths false } := by
  rw [start]
  cases request.trackPaths <;> rfl

theorem chain_eq (request : ChainRequest) :
    request.chain = match Plan.appendAll {} request.stages with
      | .error error => .error (.compilation error)
      | .ok plan => .ok
          { plan, options := request.options
            trackPaths :=
              request.trackPaths ||
                request.options.switch Options.trackPaths false } := by
  have hplan : request.start.plan = {} := by rw [start_eq]
  rw [chain, ← hplan]
  cases happend : request.start.plan.appendAll request.stages with
  | error error =>
      have hcalls := Chain.appendAll_of_error happend
      generalize Chain.appendAll request.stages request.start = result
        at hcalls ⊢
      obtain ⟨answer, after⟩ := result
      subst hcalls
      rfl
  | ok plan =>
      rw [Chain.appendAll_of_ok happend, start_eq]

def rebase (request : ChainRequest) (base : Path) : ChainRequest :=
  { request with dataset := request.dataset.rebase base }

def toJson (request : ChainRequest) : Json :=
  .ofFields
    [("name", .string request.name),
      ("stages", .array (request.stages.map Stage.toJson)),
      ("dataset", request.dataset.toJson),
      ("configuration", request.options.toJson),
      ("path_enabled", .bool request.trackPaths),
      ("overwrite", .bool request.overwrite)]

def decoder : Decoder ChainRequest :=
  Fields.decode <| ChainRequest.mk
    <$> .required "name" Decoder.text
    <*> .required "stages" Stage.decoder.list
    <*> .required "dataset" Dataset.decoder
    <*> .optional "configuration" Options.decoder .empty
    <*> .optional "path_enabled" Decoder.bool false
    <*> .optional "overwrite" Decoder.bool false

end ChainRequest

end JobChain
