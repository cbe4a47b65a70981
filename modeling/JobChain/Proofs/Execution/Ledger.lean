import JobChain.ChainInfo
import JobChain.Proofs.Execution.Upkeep

/-!
# The runs that a driver keeps

A driver that holds the runs of all jobs and shows each change to the observer
does what one does that lists the runs behind one another. What it shows, put on
record run by run, gives the runs as they stand.
-/

namespace JobChain

open Execution

variable {σ : Type}

namespace Execution

/-- The runs of all jobs of a chain, and how they stood each time that one of
them was shown. -/
structure Ledger where
  runs : List JobRun
  shown : List (List JobRun) := []

def Ledger.write (ledger : Ledger) (index : Nat)
    (change : JobRun → JobRun) : Ledger :=
  { ledger with runs := ledger.runs.modify index change }

def showRun (around : Surroundings σ) (index : Nat) (ledger : Ledger) :
    StateM σ Ledger := do
  match ledger.runs[index]? with
  | some run => around.observe run
  | none => pure ()
  return { ledger with shown := ledger.shown ++ [ledger.runs] }

def keepOne (around : Surroundings σ) (total index : Nat) (job : Job)
    (ledger : Ledger) : StateM σ (Ledger × Option ChainError) := do
  around.tell ⟨.info, "ejecutando job " ++ Text.natText (index + 1) ++ " de " ++
    Text.natText total ++ ": " ++ job.name⟩
  around.tell ⟨.info, "ubicación de datos del job: " ++
    job.output.location.text⟩
  let started ← around.now
  let ledger ← showRun around index <| ledger.write index fun run =>
    { run with status := .running, started := some started }
  let answer ← (around.runJob job).run
  finishReported around job answer
  let error? := (takeReport index job (JobRun.pending job) answer).2
  let finished ← around.now
  let ledger ← showRun around index <| ledger.write index fun run =>
    ended ((takeReport index job run answer).1, error?) finished
  return (ledger, error?)

def keepFrom (around : Surroundings σ) (total : Nat) :
    Nat → Option Job → Ledger → List Job → StateM σ (ChainOutcome × Ledger)
  | _, _, ledger, [] => do
      around.tell ⟨.info, "cadena terminada: " ++ Text.natText total ++
        " job(s) ok"⟩
      return ({ runs := ledger.runs }, ledger)
  | index, previous?, ledger, job :: rest => do
      match ← keepOne around total index job ledger with
      | (ledger, some error) =>
          around.tell ⟨.error, error.message⟩
          around.tell ⟨.error, "error en la cadena: se cancelan los " ++
            Text.natText (total - index - 1) ++ " job(s) restantes"⟩
          pure
            ({ runs := ledger.runs, failedIndex := some index, error := some error.message },
              ledger)
      | (ledger, none) =>
          tidyBehind around previous?
          keepFrom around total (index + 1) (some job) ledger rest

/-- Runs the jobs of a chain as `run` does, with the runs of all of them in one
list, which is written as the jobs go. -/
def runKept (around : Surroundings σ) (jobs : List Job) (output : Path)
    (overwrite trackPaths : Bool) :
    ExceptT IoError (StateM σ) (ChainOutcome × Ledger) := do
  if overwrite then clearOutput around output
  if trackPaths then
    around.tell ⟨.warning,
      "el cálculo de caminos está activo para esta cadena (caro en espacio y tiempo)"⟩
  let ledger : Ledger := { runs := jobs.map JobRun.pending }
  if jobs.isEmpty then return ({ runs := ledger.runs }, ledger)
  else
    around.makeDirectories output
    keepFrom around jobs.length 0 none ledger jobs

/-! ### Both drivers do the same -/

def standings (done : List JobRun) : List Job → List JobRun → List (List JobRun)
  | job :: rest, run :: runs =>
      (done ++ begun job run.started :: rest.map JobRun.pending) ::
        (done ++ run :: rest.map JobRun.pending) ::
          if run.status = .succeeded then standings (done ++ [run]) rest runs
          else []
  | _, _ => []

private theorem modify_at {α : Type} (done rest : List α) (entry : α)
    (change : α → α) :
    (done ++ entry :: rest).modify done.length change = done ++ change entry ::
    rest := by
  induction done with
  | nil => rfl
  | cons other done ih => simp [ih]

private theorem showRun_at (around : Surroundings σ) (done rest : List JobRun)
    (run : JobRun) (shown : List (List JobRun)) :
    showRun around done.length ⟨done ++ run :: rest, shown⟩ = (do
      around.observe run
      return ⟨done ++ run :: rest, shown ++ [done ++ run :: rest]⟩) := by
  simp [showRun]

private theorem takeReport_error (index : Nat) (job : Job) (run run' : JobRun)
    (answer : Except Failure JobReport) :
    (takeReport index job run answer).2 =
      (takeReport index job run' answer).2 := by
  cases answer <;> rfl

private theorem keepOne_eq (around : Surroundings σ) (total : Nat) (job : Job)
    (done rest : List JobRun) (shown : List (List JobRun)) :
    keepOne around total done.length job ⟨done ++ JobRun.pending job :: rest,
      shown⟩ = (fun answer =>
        (⟨done ++ answer.1 :: rest, shown ++
            [done ++ begun job answer.1.started :: rest,
              done ++ answer.1 :: rest]⟩, answer.2)) <$>
        runOne around total done.length job := by
  rw [runOne_eq, keepOne]
  simp only [map_bind, Ledger.write, modify_at, showRun_at, bind_assoc,
    pure_bind]
  refine bind_congr fun _ => bind_congr fun _ => bind_congr fun started =>
    bind_congr fun _ => ?_
  refine bind_congr fun answer => bind_congr fun _ =>
    bind_congr fun finished => ?_
  rw [takeReport_error done.length job (JobRun.pending job)
    (begun job (some started))]
  have hstarted :
      (ended (takeReport done.length job (begun job (some started)) answer)
        finished).started = some started := (takeReport_keeps ..).2
  refine bind_congr fun _ => ?_
  simp only [map_pure, hstarted, List.append_assoc, List.singleton_append]
  rfl

private theorem runOne_bind_congr {β : Type} (around : Surroundings σ)
    (total index : Nat) (job : Job)
    {next next' : JobRun × Option ChainError → StateM σ β}
    (h : ∀ run error?,
      run.status = (if error?.isSome then .failed else .succeeded) →
      next (run, error?) = next' (run, error?)) :
    (runOne around total index job >>= next) =
      (runOne around total index job >>= next') := by
  simp only [runOne_eq, bind_assoc, pure_bind]
  refine bind_congr fun _ => bind_congr fun _ => bind_congr fun _ =>
    bind_congr fun _ => ?_
  refine bind_congr fun _ => bind_congr fun _ => bind_congr fun _ =>
    bind_congr fun _ => ?_
  exact h _ _ rfl

private theorem keepFrom_eq (around : Surroundings σ) (total : Nat)
    (previous? : Option Job) (done : List JobRun) (jobs : List Job)
    (shown : List (List JobRun)) :
    keepFrom around total done.length previous?
      ⟨done ++ jobs.map JobRun.pending, shown⟩ jobs =
      (fun outcome =>
        ({ outcome with runs := done ++ outcome.runs },
          ⟨done ++ outcome.runs,
            shown ++ standings done jobs outcome.runs⟩)) <$>
        runFrom around total done.length previous? jobs := by
  induction jobs generalizing done previous? shown with
  | nil =>
      simp only [keepFrom, runFrom, map_bind, map_pure, standings,
        List.append_nil, List.map_nil]
  | cons job rest ih =>
      rw [keepFrom, runFrom_cons, List.map_cons, keepOne_eq, bind_map_left,
        map_bind]
      refine runOne_bind_congr _ _ _ _ fun run error? hstatus => ?_
      cases error? with
      | some error => simp [standings, hstatus]
      | none =>
          simp only [map_bind]
          refine bind_congr fun _ => ?_
          have hrest := ih (some job) (done ++ [run]) (shown ++
            [done ++ begun job run.started :: rest.map JobRun.pending,
              done ++ run :: rest.map JobRun.pending])
          simp only [List.length_append, List.length_singleton,
            List.append_assoc, List.singleton_append] at hrest
          rw [hrest, map_eq_pure_bind]
          refine bind_congr fun outcome => ?_
          simp [standings, hstatus]

theorem runKept_eq (around : Surroundings σ) (jobs : List Job) (output : Path)
    (overwrite trackPaths : Bool) :
    runKept around jobs output overwrite trackPaths =
      (fun outcome =>
        (outcome, ⟨outcome.runs, standings [] jobs outcome.runs⟩)) <$>
        Execution.run around jobs output overwrite trackPaths := by
  have hsend : (do
      if jobs.isEmpty then
        return (({ runs := jobs.map JobRun.pending } : ChainOutcome),
          ({ runs := jobs.map JobRun.pending } : Ledger))
      else
        around.makeDirectories output
        keepFrom around jobs.length 0 none
          { runs := jobs.map JobRun.pending } jobs :
          ExceptT IoError (StateM σ) (ChainOutcome × Ledger)) =
      (fun outcome =>
        (outcome, ⟨outcome.runs, standings [] jobs outcome.runs⟩)) <$>
        send around jobs output := by
    cases jobs with
    | nil => rfl
    | cons job rest =>
        have hkept :=
          keepFrom_eq around (job :: rest).length none [] (job :: rest) []
        simp only [List.length_nil, List.nil_append] at hkept
        simp only [send, List.isEmpty_cons, Bool.false_eq_true, if_false,
          map_bind, hkept]
        exact bind_congr fun _ => by rw [liftM_map]
  rw [run_eq]
  cases overwrite <;> cases trackPaths <;>
    simp only [runKept, warnAndSend, map_bind, ← hsend, Bool.false_eq_true,
      if_true, if_false]

end Execution

/-! ## The runs on record -/

def updates (runs : List JobRun) : List JobRun → List (List JobRun)
  | [] => []
  | run :: rest =>
      ChainInfo.replaceRun run runs ::
        updates (ChainInfo.replaceRun run runs) rest

def updateAll (runs shown : List JobRun) : List JobRun :=
  shown.foldl (fun runs run => ChainInfo.replaceRun run runs) runs

theorem updates_append (runs shown later : List JobRun) :
    updates runs (shown ++ later) = updates runs shown ++
    updates (updateAll runs shown) later := by
  induction shown generalizing runs with
  | nil => rfl
  | cons run rest ih => simp [updates, updateAll, ih]

private theorem replaceRun_at {done rest : List JobRun} {run old : JobRun}
    (hdone : ∀ other ∈ done, other.ordinal ≠ run.ordinal)
    (hold : old.ordinal = run.ordinal) :
    ChainInfo.replaceRun run (done ++ old :: rest) = done ++ run :: rest := by
  induction done with
  | nil => simp [ChainInfo.replaceRun, hold]
  | cons other done ih =>
      obtain ⟨hother, hdone⟩ := List.forall_mem_cons.1 hdone
      simp [ChainInfo.replaceRun, hother, ih hdone]

theorem IsTurn.updates_eq {job : Job} {run : JobRun}
    {error? : Option ChainError} {events : List (Event σ)}
    (h : IsTurn job run error? events) {done rest : List JobRun}
    (hdone : ∀ other ∈ done, other.ordinal ≠ job.ordinal) :
    updates (done ++ JobRun.pending job :: rest) (observations events) =
        [done ++ begun job run.started :: rest, done ++ run :: rest] ∧
      updateAll (done ++ JobRun.pending job :: rest) (observations events) =
        done ++ run :: rest := by
  have hordinal : run.ordinal = job.ordinal := congrArg Prod.fst h.named
  have hbegun := @replaceRun_at done rest (begun job run.started)
    (JobRun.pending job) hdone rfl
  have hended := @replaceRun_at done rest run (begun job run.started)
    (fun other hother => hordinal ▸ hdone other hother) hordinal.symm
  simp [h.observations_eq, updates, updateAll, hbegun, hended]

/-- What is shown to the observer updates a record to the runs as they stand,
each time and in the end. -/
theorem Course.updates_eq {index : Nat} {jobs : List Job}
    {outcome : ChainOutcome} {events : List (Event σ)}
    (h : Course index jobs outcome events)
    (hordinals : jobs.map Job.ordinal = List.range' index jobs.length)
    {done : List JobRun} (hdone : ∀ run ∈ done, run.ordinal < index) :
    updates (done ++ jobs.map JobRun.pending) (observations events) =
        standings done jobs outcome.runs ∧
      updateAll (done ++ jobs.map JobRun.pending) (observations events) =
        done ++ outcome.runs := by
  induction h generalizing done with
  | done hquiet _ => simp [hquiet.2, updates, updateAll, standings]
  | @failed index job rest run error events events' hturn hquiet =>
      obtain ⟨hindex, -⟩ := List.cons.inj (hordinals.trans List.range'_succ)
      obtain ⟨hupdates, hall⟩ :=
        @IsTurn.updates_eq _ _ _ _ _ hturn done (rest.map JobRun.pending)
          (fun other hother => by have := hdone other hother; omega)
      have hstatus : run.status = .failed := hturn.status_eq
      simp [hquiet.2, hupdates, hall, standings, hstatus]
  | @passed index job rest run outcome events events' later hturn hquiet
      hrest ih =>
      obtain ⟨hindex, hordinals⟩ := List.cons.inj (hordinals.trans List.range'_succ)
      obtain ⟨hupdates, hall⟩ :=
        @IsTurn.updates_eq _ _ _ _ _ hturn done (rest.map JobRun.pending)
          (fun other hother => by have := hdone other hother; omega)
      have hstatus : run.status = .succeeded := hturn.status_eq
      have hordinal : run.ordinal = job.ordinal := congrArg Prod.fst hturn.named
      have hbefore : ∀ other ∈ done ++ [run], other.ordinal < index + 1 := by
        simp only [List.mem_append, List.mem_singleton]
        rintro other (hother | rfl)
        · exact Nat.lt_succ_of_lt (hdone other hother)
        · omega
      obtain ⟨hlater, hlast⟩ := ih hordinals hbefore
      simp only [List.append_assoc, List.singleton_append] at hlater hlast
      constructor
      · simp [hquiet.2, updates_append, hupdates, hall, hlater, standings,
          hstatus]
      · rw [observations_append, observations_append, hquiet.2, List.nil_append,
          updateAll, List.foldl_append, ← updateAll, ← updateAll, List.map_cons,
          hall, hlast]

theorem IsRun.updates_eq {jobs : List Job} {outcome : ChainOutcome}
    {events : List (Event σ)} (h : IsRun jobs (.ok outcome) events)
    (hordinals : jobs.map Job.ordinal = List.range jobs.length) :
    updates (jobs.map JobRun.pending) (observations events) =
      standings [] jobs outcome.runs ∧
      updateAll (jobs.map JobRun.pending) (observations events) =
        outcome.runs := by
  cases h with
  | sent hopening hcourse =>
      rw [observations_append, hopening.quiet.2, List.nil_append]
      have hbefore : ∀ run ∈ ([] : List JobRun), run.ordinal < 0 := by simp
      exact hcourse.updates_eq (by rw [hordinals, List.range_eq_range']) hbefore

end JobChain
