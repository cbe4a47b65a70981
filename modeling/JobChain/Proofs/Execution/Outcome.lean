import JobChain.Proofs.Execution.Recording

/-!
# Outcomes of runs

Whatever an engine does, a run sends its jobs in order, none behind one that has
failed, and its outcome and its observer tell just that.
-/

namespace JobChain

open Execution

variable {σ : Type}

/-! ## What a record tells -/

/-- A job that was sent to the engine, with the states around it. -/
structure Call (σ : Type) where
  job : Job
  before : σ
  answer : Except Failure JobReport
  after : σ

def Call.succeeds (call : Call σ) : Bool :=
  match call.answer with
  | .ok report => report.status = .succeeded
  | .error _ => false

def Call.counters (call : Call σ) : Counters :=
  match call.answer with
  | .ok report => report.counters
  | .error _ => .empty

namespace Event

def call? (event : Event σ) : Option (Call σ) :=
  match event.deed with
  | .ran job answer => some ⟨job, event.before, answer, event.after⟩
  | _ => none

def observed? (event : Event σ) : Option JobRun :=
  match event.deed with
  | .observed run => some run
  | _ => none

def failure? (event : Event σ) : Option IoError :=
  match event.deed with
  | .made _ (.error error) | .deleted _ (.error error) => some error
  | _ => none

def isRemark (event : Event σ) : Bool :=
  match event.deed with
  | .told _ | .observed _ | .clocked _ => true
  | _ => false

private theorem failure?_eq_none (event : Event σ)
    (h : event.isRemark = true) : event.failure? = none := by
  obtain ⟨before, deed, after⟩ := event
  cases deed <;> simp_all [isRemark, failure?]

end Event

def calls (events : List (Event σ)) : List (Call σ) :=
  events.filterMap Event.call?

def observations (events : List (Event σ)) : List JobRun :=
  events.filterMap Event.observed?

def opening (events : List (Event σ)) : List (Event σ) :=
  events.takeWhile fun event => event.call?.isNone

section

variable (events events' : List (Event σ))

@[simp] theorem calls_nil : calls ([] : List (Event σ)) = [] := rfl

@[simp] theorem observations_nil :
    observations ([] : List (Event σ)) = [] := rfl

@[simp] theorem calls_cons (event : Event σ) :
    calls (event :: events) = event.call?.toList ++ calls events := by
  cases h : event.call? <;> simp [calls, h]

@[simp] theorem observations_cons (event : Event σ) :
    observations (event :: events) = event.observed?.toList ++
    observations events := by
  cases h : event.observed? <;> simp [observations, h]

@[simp] theorem calls_append :
    calls (events ++ events') = calls events ++ calls events' :=
  List.filterMap_append

@[simp] theorem observations_append :
    observations (events ++ events') = observations events ++
    observations events' :=
  List.filterMap_append

end

private theorem opening_append_of_calls_eq_nil {events : List (Event σ)}
    (h : calls events = []) (events' : List (Event σ)) :
    opening (events ++ events') = events ++ opening events' := by
  refine List.takeWhile_append_of_pos fun event hevent => ?_
  simpa using List.filterMap_eq_nil_iff.1 h event hevent

private theorem opening_eq_self {events : List (Event σ)}
    (h : calls events = []) : opening events = events := by
  have hall := opening_append_of_calls_eq_nil h []
  simpa [opening] using hall

private theorem opening_append_of_calls_ne_nil {events : List (Event σ)}
    (h : calls events ≠ []) (events' : List (Event σ)) :
    opening (events ++ events') = opening events := by
  induction events with
  | nil => simp at h
  | cons event rest ih =>
      cases hcall : event.call? with
      | none => simpa [opening, hcall] using ih (by simpa [hcall] using h)
      | some call => simp [opening, hcall]

/-! ## Work that sends nothing -/

/-- Nothing was sent to the engine or shown to the observer. -/
def IsQuiet (events : List (Event σ)) : Prop := calls events = [] ∧
    observations events = []

private theorem recorded_deleteEach (around : Surroundings σ)
    (paths : List Path) (state : σ) :
    Recorded state (deleteEach around.recorded paths) (deleteEach around paths)
      fun _ _ events => IsQuiet events := by
  induction paths generalizing state with
  | nil => exact .pure ⟨rfl, rfl⟩
  | cons path rest ih =>
      simp only [deleteEach, Surroundings.run_recorded_delete,
        Surroundings.recorded_tell]
      refine .record_bind fun result after _ => ?_
      rcases result with error | there <;>
        exact .record_bind fun _ last _ =>
          (ih last).mono fun _ _ events hquiet => by
          simpa [IsQuiet, Event.call?, Event.observed?] using hquiet

theorem recorded_deleteMatching (around : Surroundings σ)
    (patterns : List String) (state : σ) :
    Recorded state (deleteMatching around.recorded patterns)
      (deleteMatching around patterns) fun _ _ events => IsQuiet events := by
  induction patterns generalizing state with
  | nil => exact .pure ⟨rfl, rfl⟩
  | cons pattern rest ih =>
      simp only [deleteMatching, Surroundings.run_recorded_list,
        Surroundings.recorded_tell]
      refine .record_bind fun result after _ => ?_
      cases result with
      | error error =>
          refine .record_bind fun _ last _ =>
            (ih last).mono fun _ _ events hquiet => ?_
          simpa [IsQuiet, Event.call?, Event.observed?] using hquiet
      | ok paths =>
          refine (recorded_deleteEach around paths after).bind
            fun _ last deleted hdeleted => ?_
          refine (ih last).mono fun _ _ events hquiet => ?_
          simpa [IsQuiet, Event.call?, Event.observed?, hdeleted.1, hdeleted.2]
            using hquiet

private theorem recorded_finish (around : Surroundings σ) (job : Job)
    (state : σ) :
    Recorded state (finish around.recorded job) (finish around job)
      fun _ _ events => IsQuiet events := by
  unfold finish
  cases job.publishes with
  | false => exact .pure ⟨rfl, rfl⟩
  | true =>
      simp only [if_true, Surroundings.run_recorded_publish,
        Surroundings.recorded_tell]
      refine .record_bind fun result after _ => ?_
      cases result with
      | error error =>
          refine (recorded_record _ _).mono ?_
          rintro _ _ _ ⟨-, rfl⟩
          exact ⟨rfl, rfl⟩
      | ok there => exact .pure ⟨rfl, rfl⟩

/-! ## One job -/

def nameOf (run : JobRun) : Nat × String × Path :=
  (run.ordinal, run.name, run.location)

def begun (job : Job) (started : Option Timestamp) : JobRun :=
  { JobRun.pending job with status := .running, started }

def ended (taken : JobRun × Option ChainError)
    (finished : Timestamp) : JobRun :=
  { taken.1 with
    finished := some finished
    status := if taken.2.isSome then .failed else .succeeded
    error := taken.2.map ChainError.message }

def finishReported (around : Surroundings σ) (job : Job)
    (answer : Except Failure JobReport) : StateM σ Unit :=
  if answer.isOk then finish around job else pure ()

theorem runOne_eq (around : Surroundings σ) (total index : Nat) (job : Job) :
    runOne around total index job = do
      around.tell ⟨.info, "ejecutando job " ++ Text.natText (index + 1) ++
        " de " ++ Text.natText total ++ ": " ++ job.name⟩
      around.tell ⟨.info, "ubicación de datos del job: " ++
        job.output.location.text⟩
      let started ← around.now
      around.observe (begun job (some started))
      let answer ← (around.runJob job).run
      finishReported around job answer
      let taken := takeReport index job (begun job (some started)) answer
      let finished ← around.now
      around.observe (ended taken finished)
      return (ended taken finished, taken.2) := by
  unfold runOne
  refine bind_congr fun _ => bind_congr fun _ => bind_congr fun started => ?_
  refine bind_congr fun _ => bind_congr fun answer => ?_
  unfold finishReported
  cases answer.isOk <;> rfl

theorem recorded_finishReported (around : Surroundings σ) (job : Job)
    (answer : Except Failure JobReport) (state : σ) :
    Recorded state (finishReported around.recorded job answer)
      (finishReported around job answer) fun _ _ events => IsQuiet events := by
  unfold finishReported
  cases answer.isOk with
  | false => exact .pure ⟨rfl, rfl⟩
  | true => exact recorded_finish around job state

/-- What one job adds to the record, with its run and why it failed. -/
structure IsTurn (job : Job) (run : JobRun) (error? : Option ChainError)
    (events : List (Event σ)) : Prop where
  named : nameOf run = nameOf (JobRun.pending job)
  status_eq : run.status = if error?.isSome then .failed else .succeeded
  error_eq : run.error = error?.map ChainError.message
  calls_eq : ∃ call, calls events = [call] ∧ call.job = job ∧
      call.succeeds = error?.isNone
  counters_eq : (calls events).map Call.counters = [run.counters]
  observations_eq : observations events = [begun job run.started, run]
  opening_remarks : ∀ event ∈ opening events, event.isRemark = true

theorem IsTurn.length_calls {job : Job} {run : JobRun}
    {error? : Option ChainError} {events : List (Event σ)}
    (h : IsTurn job run error? events) : (calls events).length = 1 := by
  simpa using congrArg List.length h.counters_eq

theorem takeReport_keeps (index : Nat) (job : Job) (run : JobRun)
    (answer : Except Failure JobReport) :
    let taken := (takeReport index job run answer).1
    nameOf taken = nameOf run ∧ taken.started = run.started := by
  cases answer <;> simp [takeReport, nameOf]

private theorem takeReport_isNone (index : Nat) (run : JobRun) (call : Call σ) :
    (takeReport index call.job run call.answer).2.isNone = call.succeeds := by
  obtain ⟨job, before, answer, after⟩ := call
  cases answer with
  | error failure => simp [takeReport, Call.succeeds]
  | ok report => by_cases h : report.status = .succeeded <;>
      simp [takeReport, Call.succeeds, JobReport.failure?, h]

private theorem counters_takeReport (index : Nat) {run : JobRun}
    (hempty : run.counters = .empty) (call : Call σ) :
    (takeReport index call.job run call.answer).1.counters = call.counters := by
  obtain ⟨job, before, answer, after⟩ := call
  cases answer with
  | error failure => exact hempty
  | ok report => rfl

theorem recorded_runOne (around : Surroundings σ) (total index : Nat)
    (job : Job) (state : σ) :
    Recorded state (runOne around.recorded total index job)
      (runOne around total index job) fun answer _ events =>
        IsTurn job answer.1 answer.2 events := by
  rw [runOne_eq, runOne_eq]
  simp only [Surroundings.recorded_tell, Surroundings.recorded_now,
    Surroundings.recorded_observe, Surroundings.run_recorded_runJob]
  refine .record_bind fun _ _ _ => .record_bind fun _ _ _ =>
    .record_bind fun started _ _ => ?_
  refine .record_bind fun _ before _ => .record_bind fun answer after _ => ?_
  refine (recorded_finishReported around job answer after).bind
    fun _ _ finishing hquiet => ?_
  refine .record_bind fun finished _ _ => .record_bind fun _ _ _ => .pure ?_
  obtain ⟨hcalls, hobservations⟩ := hquiet
  obtain ⟨hnamed, hstarted⟩ :=
    takeReport_keeps index job (begun job (some started)) answer
  constructor
  case named => exact hnamed
  case status_eq => rfl
  case error_eq => rfl
  case calls_eq =>
    refine ⟨⟨job, before, answer, after⟩, ?_, rfl, ?_⟩
    · simp [Event.call?, hcalls]
    · exact (takeReport_isNone index _ ⟨job, before, answer, after⟩).symm
  case counters_eq =>
    have hcounters :=
      counters_takeReport index
        (rfl : (begun job (some started)).counters = .empty)
      ⟨job, before, answer, after⟩
    simp [Event.call?, hcalls, ended, ← hcounters]
  case observations_eq =>
    simp only [ended, hstarted]
    simp [Event.observed?, hobservations, begun]
  case opening_remarks => simp [opening, Event.call?, Event.isRemark]

/-! ## Jobs in order -/

/-- How jobs from an index on can come out, and what they add to the record. -/
inductive Course : Nat → List Job → ChainOutcome → List (Event σ) → Prop where
  | done {index : Nat} {events : List (Event σ)} (hquiet : IsQuiet events)
      (hremarks : ∀ event ∈ events, event.isRemark = true) :
      Course index [] { runs := [] } events
  | failed {index : Nat} {job : Job} {rest : List Job} {run : JobRun}
      {error : ChainError} {events events' : List (Event σ)}
      (hturn : IsTurn job run (some error) events) (hquiet : IsQuiet events') :
      Course index (job :: rest)
        { runs := run :: rest.map JobRun.pending, failedIndex := some index
          error := some error.message }
        (events ++ events')
  | passed {index : Nat} {job : Job} {rest : List Job} {run : JobRun}
      {outcome : ChainOutcome} {events events' later : List (Event σ)}
      (hturn : IsTurn job run none events) (hquiet : IsQuiet events')
      (hrest : Course (index + 1) rest outcome later) :
      Course index (job :: rest) { outcome with runs := run :: outcome.runs }
        (events ++ (events' ++ later))

private theorem recorded_runFrom (around : Surroundings σ) (total index : Nat)
    (previous? : Option Job) (jobs : List Job) (state : σ) :
    Recorded state (runFrom around.recorded total index previous? jobs)
      (runFrom around total index previous? jobs) fun outcome _ events =>
        Course index jobs outcome events := by
  induction jobs generalizing index previous? state with
  | nil =>
      simp only [runFrom, Surroundings.recorded_tell]
      exact .record_bind fun _ _ _ =>
        .pure (.done ⟨rfl, rfl⟩ (by simp [Event.isRemark]))
  | cons job rest ih =>
      simp only [runFrom, Surroundings.recorded_tell]
      refine (recorded_runOne around total index job state).bind ?_
      rintro ⟨run, _ | error⟩ between turn hturn
      · cases previous? with
        | none =>
            refine (ih (index + 1) (some job) between).bind
              fun _ _ later hlater => .pure ?_
            simpa using Course.passed hturn (⟨rfl, rfl⟩ : IsQuiet []) hlater
        | some previous =>
            refine (recorded_deleteMatching around _ between).bind
              fun _ after _ hquiet => ?_
            refine (ih (index + 1) (some job) after).bind
              fun _ _ later hlater => .pure ?_
            simpa using Course.passed hturn hquiet hlater
      · refine .record_bind fun _ _ _ => .record_bind fun _ _ _ => .pure ?_
        exact .failed hturn ⟨rfl, rfl⟩

/-! ## What an outcome means -/

def transitions (jobs : List Job) (runs : List JobRun) : List JobRun :=
  (jobs.zip runs).flatMap fun (job, run) => [begun job run.started, run]

structure AllSucceeded (jobs : List Job) (outcome : ChainOutcome)
    (events : List (Event σ)) : Prop where
  failedIndex_eq : outcome.failedIndex = none
  error_eq : outcome.error = none
  named : outcome.runs.map nameOf = jobs.map fun job =>
      nameOf (JobRun.pending job)
  succeeded : ∀ run ∈ outcome.runs, run.status = .succeeded
  jobs_sent : (calls events).map Call.job = jobs
  answers : ∀ call ∈ calls events, call.succeeds = true
  observations_eq : observations events = transitions jobs outcome.runs

/-- The jobs before an index have been sent and have succeeded, the one at it
has been sent and has failed, and the others wait as they did before. -/
structure FailedAt (failed : Nat) (jobs : List Job) (outcome : ChainOutcome)
    (events : List (Event σ)) : Prop where
  failedIndex_eq : outcome.failedIndex = some failed
  named : outcome.runs.map nameOf = jobs.map fun job =>
      nameOf (JobRun.pending job)
  succeeded : ∀ run ∈ outcome.runs.take failed, run.status = .succeeded
  stopped : ∃ run text, outcome.runs[failed]? = some run ∧
    run.status = .failed ∧ run.error = some text ∧ outcome.error = some text
  waiting : outcome.runs.drop (failed + 1) =
      (jobs.drop (failed + 1)).map JobRun.pending
  jobs_sent : (calls events).map Call.job = jobs.take (failed + 1)
  answers : ((calls events).map Call.succeeds) =
      List.replicate failed true ++ [false]
  observations_eq :
      observations events = transitions (jobs.take (failed + 1)) outcome.runs

theorem AllSucceeded.cons {job : Job} {rest : List Job} {run : JobRun}
    {outcome : ChainOutcome} {events events' later : List (Event σ)}
    (h : AllSucceeded rest outcome later) (hturn : IsTurn job run none events)
    (hquiet : IsQuiet events') :
    AllSucceeded (job :: rest) { outcome with runs := run :: outcome.runs }
      (events ++ (events' ++ later)) := by
  obtain ⟨call, hcalls, hjob, hsucceeds⟩ := hturn.calls_eq
  constructor
  case failedIndex_eq => exact h.failedIndex_eq
  case error_eq => exact h.error_eq
  case named => simp [hturn.named, h.named]
  case succeeded => simpa [hturn.status_eq] using h.succeeded
  case jobs_sent => simp [hcalls, hquiet.1, hjob, h.jobs_sent]
  case answers => simpa [hcalls, hquiet.1, hsucceeds] using h.answers
  case observations_eq =>
    simp [hturn.observations_eq, hquiet.2, h.observations_eq, transitions]

theorem FailedAt.cons {failed : Nat} {job : Job} {rest : List Job}
    {run : JobRun} {outcome : ChainOutcome}
    {events events' later : List (Event σ)}
    (h : FailedAt failed rest outcome later)
    (hturn : IsTurn job run none events) (hquiet : IsQuiet events') :
    FailedAt (failed + 1) (job :: rest)
      { outcome with runs := run :: outcome.runs, failedIndex := some (failed + 1) }
      (events ++ (events' ++ later)) := by
  obtain ⟨call, hcalls, hjob, hsucceeds⟩ := hturn.calls_eq
  constructor
  case failedIndex_eq => rfl
  case named => simp [hturn.named, h.named]
  case succeeded => simpa [hturn.status_eq] using h.succeeded
  case stopped => simpa using h.stopped
  case waiting => simpa using h.waiting
  case jobs_sent => simp [hcalls, hquiet.1, hjob, h.jobs_sent]
  case answers => simp [hcalls, hquiet.1, hsucceeds, h.answers,
    List.replicate_succ]
  case observations_eq =>
    simp [hturn.observations_eq, hquiet.2, h.observations_eq, transitions]

private theorem failedAt_zero {job : Job} {rest : List Job} {run : JobRun}
    {error : ChainError} {events events' : List (Event σ)}
    (hturn : IsTurn job run (some error) events) (hquiet : IsQuiet events') :
    FailedAt 0 (job :: rest)
      { runs := run :: rest.map JobRun.pending, failedIndex := some 0
        error := some error.message }
      (events ++ events') := by
  obtain ⟨call, hcalls, hjob, hsucceeds⟩ := hturn.calls_eq
  constructor
  case failedIndex_eq => rfl
  case named => simp [hturn.named]
  case succeeded => simp
  case stopped => simp [hturn.status_eq, hturn.error_eq]
  case waiting => simp
  case jobs_sent => simp [hcalls, hquiet.1, hjob]
  case answers => simp [hcalls, hquiet.1, hsucceeds]
  case observations_eq => simp [hturn.observations_eq, hquiet.2, transitions]

theorem Course.ends {index : Nat} {jobs : List Job} {outcome : ChainOutcome}
    {events : List (Event σ)} (h : Course index jobs outcome events) :
    AllSucceeded jobs outcome events ∨
      ∃ failed, outcome.failedIndex = some (index + failed) ∧
        FailedAt failed jobs
          { outcome with failedIndex := some failed } events := by
  induction h with
  | done hquiet hremarks =>
      refine .inl ?_
      constructor <;> simp [hquiet.1, hquiet.2, transitions]
  | failed hturn hquiet => exact .inr ⟨0, rfl, failedAt_zero hturn hquiet⟩
  | passed hturn hquiet hrest ih =>
      rcases ih with hall | ⟨failed, hindex, hfailed⟩
      · exact .inl (hall.cons hturn hquiet)
      · refine .inr ⟨failed + 1, ?_, hfailed.cons hturn hquiet⟩
        rw [hindex]
        congr 1
        omega

private theorem Course.opening_remarks {index : Nat} {jobs : List Job}
    {outcome : ChainOutcome} {events : List (Event σ)}
    (h : Course index jobs outcome events) :
    ∀ event ∈ opening events, event.isRemark = true := by
  cases h with
  | done hquiet hremarks =>
      rw [opening_eq_self hquiet.1]
      exact hremarks
  | failed hturn | passed hturn =>
      obtain ⟨call, hcalls, -⟩ := hturn.calls_eq
      rw [opening_append_of_calls_ne_nil (by simp [hcalls])]
      exact hturn.opening_remarks

private theorem AllSucceeded.exitCode_eq_zero_iff {jobs : List Job}
    {outcome : ChainOutcome} {events : List (Event σ)}
    (h : AllSucceeded jobs outcome events) : outcome.exitCode = 0 ↔
    ∀ run ∈ outcome.runs, run.status = .succeeded := by
  simpa [ChainOutcome.exitCode, h.failedIndex_eq] using h.succeeded

private theorem FailedAt.exitCode_eq_zero_iff {failed : Nat} {jobs : List Job}
    {outcome : ChainOutcome} {events : List (Event σ)}
    (h : FailedAt failed jobs outcome events) : outcome.exitCode = 0 ↔
    ∀ run ∈ outcome.runs, run.status = .succeeded := by
  obtain ⟨run, text, hrun, hstatus, -⟩ := h.stopped
  have hpositive : outcome.exitCode ≠ 0 := by
    simp [ChainOutcome.exitCode, h.failedIndex_eq]
  refine ⟨fun hzero => absurd hzero hpositive, fun hall => ?_⟩
  have hsucceeded := hall run (List.mem_of_getElem? hrun)
  simp [hstatus] at hsucceeded

/-! ## Before the first job -/

/-- Nothing has been sent, and what failed is what is reported. -/
structure IsOpening {α : Type} (result : Except IoError α)
    (events : List (Event σ)) : Prop where
  quiet : IsQuiet events
  failure_iff : ∀ error, (∃ event ∈ events, event.failure? = some error) ↔
      result = .error error

theorem recorded_clearOutput (around : Surroundings σ) (output : Path)
    (state : σ) :
    Recorded state (clearOutput around.recorded output).run
      (clearOutput around output).run fun result _ events =>
        IsOpening result events := by
  unfold clearOutput
  refine .lift_record_bind (around.recorded_isThere output) fun there _ _ => ?_
  cases there with
  | false => exact .pure ⟨⟨rfl, rfl⟩, by simp [Event.failure?]⟩
  | true =>
      refine .lift_record_bind (around.recorded_tell _) fun _ _ _ => ?_
      refine .run_record_bind (around.run_recorded_delete output)
        (fun error _ _ => ?_) fun there _ _ => .pure ?_
      · exact ⟨⟨rfl, rfl⟩, by simp [Event.failure?]⟩
      · exact ⟨⟨rfl, rfl⟩, by simp [Event.failure?]⟩

def send (around : Surroundings σ) (jobs : List Job) (output : Path) :
    ExceptT IoError (StateM σ) ChainOutcome :=
  if jobs.isEmpty then pure { runs := [] }
  else do
    around.makeDirectories output
    runFrom around jobs.length 0 none jobs

def warnAndSend (around : Surroundings σ) (jobs : List Job) (output : Path)
    (trackPaths : Bool) : ExceptT IoError (StateM σ) ChainOutcome := do
  if trackPaths then
    around.tell ⟨.warning,
      "el cálculo de caminos está activo para esta cadena (caro en espacio y tiempo)"⟩
  send around jobs output

theorem run_eq (around : Surroundings σ) (jobs : List Job) (output : Path)
    (overwrite trackPaths : Bool) :
    Execution.run around jobs output overwrite trackPaths = (do
      if overwrite then clearOutput around output
      warnAndSend around jobs output trackPaths) := by
  cases overwrite <;> cases trackPaths <;> rfl

/-- What a whole run adds to the record: its jobs are sent only once there is
room for them. -/
inductive IsRun (jobs : List Job) : Except IoError ChainOutcome →
    List (Event σ) → Prop where
  | refused {error : IoError} {events : List (Event σ)}
      (h : IsOpening (.error error : Except IoError Unit) events) :
      IsRun jobs (.error error) events
  | sent {outcome : ChainOutcome} {events later : List (Event σ)}
      (h : IsOpening (.ok () : Except IoError Unit) events)
      (hcourse : Course 0 jobs outcome later) :
      IsRun jobs (.ok outcome) (events ++ later)

private theorem isOpening_nil :
    IsOpening (.ok () : Except IoError Unit) ([] : List (Event σ)) :=
  ⟨⟨rfl, rfl⟩, by simp⟩

theorem IsOpening.append {result : Except IoError Unit}
    {events later : List (Event σ)}
    (h : IsOpening (.ok () : Except IoError Unit) events)
    (hlater : IsOpening result later) : IsOpening result (events ++ later) where
  quiet := by
    simp [IsQuiet, h.quiet.1, h.quiet.2, hlater.quiet.1, hlater.quiet.2]
  failure_iff error := by
    have hnone := h.failure_iff error
    simp only [List.mem_append, or_and_right, exists_or,
      hlater.failure_iff error] at hnone ⊢
    simp [hnone]

private theorem IsRun.prepend {jobs : List Job}
    {result : Except IoError ChainOutcome} {events later : List (Event σ)}
    (h : IsOpening (.ok () : Except IoError Unit) events)
    (hlater : IsRun jobs result later) :
    IsRun jobs result (events ++ later) := by
  cases hlater with
  | refused hrefused => exact .refused (h.append hrefused)
  | sent hsent hcourse =>
      rw [← List.append_assoc]
      exact .sent (h.append hsent) hcourse

private theorem recorded_send (around : Surroundings σ) (jobs : List Job)
    (output : Path) (state : σ) :
    Recorded state (send around.recorded jobs output).run
      (send around jobs output).run fun result _ events =>
        IsRun jobs result events := by
  unfold send
  cases jobs with
  | nil => exact .pure (IsRun.sent isOpening_nil (.done ⟨rfl, rfl⟩ (by simp)))
  | cons job rest =>
      refine .run_record_bind (around.run_recorded_makeDirectories output)
        (fun error _ _ => ?_) fun _ between _ => ?_
      · exact .refused ⟨⟨rfl, rfl⟩, by simp [Event.failure?]⟩
      · rw [ExceptT.run_liftM, ExceptT.run_liftM, map_eq_pure_bind,
          map_eq_pure_bind]
        refine (recorded_runFrom around _ 0 none (job :: rest) between).bind ?_
        intro outcome _ later hcourse
        have hmade : IsOpening (.ok () : Except IoError Unit)
            [⟨state, .made output (.ok ()), between⟩] :=
          ⟨⟨rfl, rfl⟩, by simp [Event.failure?]⟩
        exact .pure (by simpa using IsRun.sent hmade hcourse)

private theorem recorded_warnAndSend (around : Surroundings σ) (jobs : List Job)
    (output : Path) (trackPaths : Bool) (state : σ) :
    Recorded state (warnAndSend around.recorded jobs output trackPaths).run
      (warnAndSend around jobs output trackPaths).run fun result _ events =>
        IsRun jobs result events := by
  unfold warnAndSend
  cases trackPaths with
  | false => exact recorded_send around jobs output state
  | true =>
      refine .lift_record_bind (around.recorded_tell _) fun _ between _ => ?_
      refine (recorded_send around jobs output between).mono
        fun _ _ later hlater => ?_
      refine hlater.prepend (?_ : IsOpening _ [_])
      exact ⟨⟨rfl, rfl⟩, by simp [Event.failure?]⟩

theorem recorded_run (around : Surroundings σ) (jobs : List Job) (output : Path)
    (overwrite trackPaths : Bool) (state : σ) :
    Recorded state
      (Execution.run around.recorded jobs output overwrite trackPaths).run
      (Execution.run around jobs output overwrite trackPaths).run
      fun result _ events => IsRun jobs result events := by
  rw [run_eq, run_eq]
  cases overwrite with
  | false => exact recorded_warnAndSend around jobs output trackPaths state
  | true =>
      refine .run_bind (recorded_clearOutput around output state) ?_ ?_
      · exact fun _ _ _ hopening => .refused hopening
      · intro _ between events hopening
        refine (recorded_warnAndSend around jobs output trackPaths between).mono
          ?_
        exact fun _ _ later hlater => hlater.prepend hopening

/-! ## Runs -/

private theorem AllSucceeded.of_quiet {jobs : List Job} {outcome : ChainOutcome}
    {events later : List (Event σ)} (h : AllSucceeded jobs outcome later)
    (hquiet : IsQuiet events) :
    AllSucceeded jobs outcome (events ++ later) where
  failedIndex_eq := h.failedIndex_eq
  error_eq := h.error_eq
  named := h.named
  succeeded := h.succeeded
  jobs_sent := by simpa [hquiet.1] using h.jobs_sent
  answers := by simpa [hquiet.1] using h.answers
  observations_eq := by simpa [hquiet.2] using h.observations_eq

private theorem FailedAt.of_quiet {failed : Nat} {jobs : List Job}
    {outcome : ChainOutcome} {events later : List (Event σ)}
    (h : FailedAt failed jobs outcome later) (hquiet : IsQuiet events) :
    FailedAt failed jobs outcome (events ++ later) where
  failedIndex_eq := h.failedIndex_eq
  named := h.named
  succeeded := h.succeeded
  stopped := h.stopped
  waiting := h.waiting
  jobs_sent := by simpa [hquiet.1] using h.jobs_sent
  answers := by simpa [hquiet.1] using h.answers
  observations_eq := by simpa [hquiet.2] using h.observations_eq

namespace IsRun

variable {jobs : List Job} {result : Except IoError ChainOutcome}
  {events : List (Event σ)}

theorem ends {outcome : ChainOutcome} (h : IsRun jobs (.ok outcome) events) :
    AllSucceeded jobs outcome events ∨ ∃ failed,
    FailedAt failed jobs outcome events := by
  cases h with
  | sent hopening hcourse =>
      rcases hcourse.ends with hall | ⟨failed, hindex, hfailed⟩
      · exact .inl (hall.of_quiet hopening.quiet)
      · refine .inr ⟨failed, ?_⟩
        have houtcome : { outcome with failedIndex := some failed } =
            outcome := by
          rw [Nat.zero_add] at hindex
          rw [← hindex]
        rw [houtcome] at hfailed
        exact hfailed.of_quiet hopening.quiet

theorem failure_iff (h : IsRun jobs result events) (error : IoError) :
    (∃ event ∈ opening events, event.failure? = some error) ↔
    result = .error error := by
  cases h with
  | refused hopening =>
      rw [opening_eq_self hopening.quiet.1, hopening.failure_iff error]
      simp
  | sent hopening hcourse =>
      rw [opening_append_of_calls_eq_nil hopening.quiet.1]
      simp only [List.mem_append, or_and_right, exists_or,
        hopening.failure_iff error]
      refine iff_of_false ?_ (by simp)
      rintro (hok | ⟨event, hevent, hfailure⟩)
      · cases hok
      · simp [event.failure?_eq_none (hcourse.opening_remarks event hevent)]
          at hfailure

theorem quiet {error : IoError}
    (h : IsRun jobs (.error error) events) : IsQuiet events := by
  cases h with
  | refused hopening => exact hopening.quiet

end IsRun

/-- Whatever the engine does, a run either refuses to begin, and then nothing is
sent, or sends its jobs in order up to the first that fails, as its outcome and
its observer tell. -/
theorem run_in_order (around : Surroundings σ) (jobs : List Job) (output : Path)
    (overwrite trackPaths : Bool) (start : σ) :
    let (result, final) := (Execution.run around jobs output overwrite trackPaths).run start
    ∃ events : List (Event σ),
      (Execution.run around.recorded jobs output overwrite trackPaths).run
        (start, []) = (result, final, events) ∧
      (∀ outcome, result = .ok outcome →
        (AllSucceeded jobs outcome events ∨ ∃ failed,
          FailedAt failed jobs outcome events) ∧
          (outcome.exitCode = 0 ↔ ∀ run ∈ outcome.runs,
            run.status = .succeeded)) ∧
      (∀ error, (∃ event ∈ opening events, event.failure? = some error) ↔
        result = .error error) ∧
      ∀ error, result = .error error → calls events = [] ∧
        observations events = [] := by
  obtain ⟨events, hrun, h⟩ :=
    recorded_run around jobs output overwrite trackPaths start []
  rw [List.nil_append] at hrun
  refine ⟨events, hrun, ?_, h.failure_iff, ?_⟩
  · intro outcome houtcome
    have hends := (houtcome ▸ h).ends
    refine ⟨hends, ?_⟩
    rcases hends with hall | ⟨failed, hfailed⟩
    · exact hall.exitCode_eq_zero_iff
    · exact hfailed.exitCode_eq_zero_iff
  · intro error herror
    exact (herror ▸ h).quiet

def sampleJob (ordinal : Nat) : Job where
  ordinal
  name := "copiar"
  stages := []
  input := { location := ⟨"in"⟩, format := .jsonLines }
  output := { location := ⟨"out"⟩, format := .intermediate, named := [] }
  options := SortedMap.empty
  reduceTasks := 0
  package := ⟨"stages.jar"⟩

def fickle : Surroundings Nat where
  isThere _ := pure false
  makeDirectories _ := pure ()
  delete _ := pure true
  list _ := pure []
  runJob _ := fun count =>
    (.ok { id := "", status := if count = 0 then .succeeded else .failed },
      count + 1)
  publish _ := pure ()
  observe _ := pure ()
  tell _ := pure ()
  now := pure { seconds := 0 }

theorem run_in_order_fickle :
    ∃ outcome events,
      (Execution.run fickle [sampleJob 0, sampleJob 1,
        sampleJob 2] ⟨"out"⟩ false false).run 0 =
        (.ok outcome, 2) ∧
      outcome.failedIndex = some 1 ∧
      (calls (events : List (Event Nat))).map Call.job = [sampleJob 0,
        sampleJob 1] := by
  obtain ⟨events, -, houtcome, -⟩ :=
    run_in_order fickle [sampleJob 0, sampleJob 1,
      sampleJob 2] ⟨"out"⟩ false false 0
  obtain ⟨hall | ⟨failed, hfailed⟩, -⟩ := houtcome _ rfl
  · exact absurd hall.failedIndex_eq (by simp)
  · refine ⟨_, events, rfl, rfl, ?_⟩
    have hindex : some failed = some 1 := hfailed.failedIndex_eq.symm
    cases hindex
    exact hfailed.jobs_sent

end JobChain
