import JobChain.Proofs.Engine.Tallies
import JobChain.Proofs.Execution.Handover
import JobChain.Proofs.Execution.Trails

/-!
# Totals of runs

What a chain has counted in all does not tell how the counting was divided among
jobs and tasks. Jobs that have failed add nothing to it, and neither do jobs
that still wait.
-/

namespace JobChain

open Execution
open Engine (StaysInside tasksAsked inputsAt counters_of_runJob)
open Counters (ofIncrements ofTasks ofJobsInWords?)

variable {σ : Type}

/-! ## Outcomes -/

namespace ChainOutcome

variable {outcome : ChainOutcome} {jobs : List (List (List Increment))}

def Merges (outcome : ChainOutcome)
    (jobs : List (List (List Increment))) : Prop :=
  outcome.runs.map JobRun.counters = jobs.map ofTasks

private theorem counters_eq_mergeAll (outcome : ChainOutcome) :
    outcome.counters = Counters.mergeAll (outcome.runs.map JobRun.counters) :=
  List.foldl_map.symm

theorem Merges.counters_eq (h : outcome.Merges jobs) :
    outcome.counters = ofIncrements jobs.flatten.flatten := by
  rw [counters_eq_mergeAll, h, Counters.mergeAll_ofTasks]

end ChainOutcome

/-! ## Calls and runs -/

theorem Course.counters_eq {index : Nat} {jobs : List Job}
    {outcome : ChainOutcome} {events : List (Event σ)}
    (h : Course index jobs outcome events) :
    outcome.runs.map JobRun.counters = (calls events).map Call.counters ++
      List.replicate (jobs.length - (calls events).length) .empty := by
  induction h with
  | done hquiet => simp [hquiet.1]
  | @failed _ _ rest _ _ _ _ hturn hquiet =>
      have hrest : (rest.map JobRun.pending).map JobRun.counters =
          List.replicate rest.length .empty := by
        rw [List.map_map]
        exact List.map_const' ..
      simp [hturn.counters_eq, hturn.length_calls, hquiet.1,
        -List.map_map, hrest]
  | passed hturn hquiet _ ih =>
      simp [hturn.counters_eq, hturn.length_calls, hquiet.1, ih, Nat.add_comm 1]

theorem IsRun.counters_eq {jobs : List Job} {outcome : ChainOutcome}
    {events : List (Event σ)} (h : IsRun jobs (.ok outcome) events) :
    outcome.runs.map JobRun.counters = (calls events).map Call.counters ++
      List.replicate (jobs.length - (calls events).length) .empty := by
  cases h with
  | sent hopening hcourse => simpa [hopening.quiet.1] using hcourse.counters_eq

namespace Call

variable {call : Call σ}

/-- What each task of a call has counted, in the order in which the engine
merges them. Nothing is left of what the tasks of a failed call have counted. -/
def tasks (registry : Registry) (place : HasStore σ)
    (call : Call σ) : List (List Increment) :=
  if call.succeeds then
    (tasksAsked registry call.job
      (inputsAt call.job (place.store call.before))).map incrementsOf
  else []

theorem counters_eq {around : Surroundings σ} {place : HasStore σ}
    {registry : Registry} (hlocal : around.IsLocal place registry)
    (hinside : StaysInside call.job) (hof : call.IsOf around) :
    call.counters = ofTasks (call.tasks registry place) := by
  obtain ⟨id, hrun⟩ := hlocal.runJob_eq call.job call.before
  rw [hof] at hrun
  unfold Call.counters Call.tasks Call.succeeds
  cases hanswer : call.answer with
  | error failure => rfl
  | ok report =>
      rw [hanswer] at hrun
      have hcounters :=
        counters_of_runJob hinside (show Succeeds _ _ report _ from hrun)
      by_cases hstatus : report.status = .succeeded <;> simpa [hstatus]
          using hcounters

end Call

private theorem recorded_run_merges {around : Surroundings σ}
    {place : HasStore σ} {registry : Registry}
    (hlocal : around.IsLocal place registry) {jobs : List Job}
    (hinside : ∀ job ∈ jobs, StaysInside job) (output : Path)
    (overwrite trackPaths : Bool) (state : σ) :
    Recorded state
      (Execution.run around.recorded jobs output overwrite trackPaths).run
      (Execution.run around jobs output overwrite trackPaths).run
      fun result _ events =>
        ∀ outcome, result = .ok outcome →
          outcome.Merges ((calls events).map (Call.tasks registry place) ++
            List.replicate (jobs.length - (calls events).length) []) := by
  have hkeeps : around.Keeps (fun _ => True) jobs (some output) :=
    fun _ _ _ _ => trivial
  refine ((recorded_run around jobs output overwrite trackPaths state).and
    (recorded_run_trail output hkeeps overwrite trackPaths trivial)).mono ?_
  rintro _ _ events ⟨hrun, htrail⟩ outcome rfl
  have hcalls : (calls events).map Call.counters =
      ((calls events).map (Call.tasks registry place)).map ofTasks := by
    rw [List.map_map]
    refine List.map_congr_left fun call hcall => ?_
    obtain ⟨hof, hjob⟩ := htrail.forall_calls call hcall
    exact Call.counters_eq hlocal (hinside _ hjob) hof
  rw [ChainOutcome.Merges, hrun.counters_eq, hcalls, List.map_append,
    List.map_replicate, Counters.ofTasks_nil]

/-! ## Totals -/

/-- Increments that are divided among jobs and their tasks in any way and are
merged in any order come to what they come to one by one: a sum for each group
and name, listed in order. Where the sums fit in 64 bits, so do all before them.
The outcome of a run merges what the tasks of its calls have counted. -/
theorem run_adds_up {increments : List Increment}
    (hfits : ∀ group name, amountIn group name increments < 2 ^ 64) :
    (∀ (outcome : ChainOutcome) (jobs : List (List (List Increment))),
      outcome.Merges jobs → jobs.flatten.flatten.Perm increments →
        outcome.counters = ofIncrements increments ∧
        outcome.counters.AddsUp increments ∧
          ofJobsInWords? jobs = some outcome.counters) ∧
    ∀ (σ : Type) (around : Surroundings σ) (place : HasStore σ)
      (registry : Registry), around.IsLocal place registry → ∀ jobs : List Job,
      (∀ job ∈ jobs, StaysInside job) →
        ∀ (output : Path) (overwrite trackPaths : Bool) (start : σ),
          ∃ result final, ∃ events : List (Event σ),
            (Execution.run around jobs output overwrite trackPaths).run start =
              (result, final) ∧
            (Execution.run around.recorded jobs output overwrite trackPaths).run
              (start, []) = (result, final, events) ∧
            ∀ outcome, result = .ok outcome →
              outcome.Merges ((calls events).map (Call.tasks registry place) ++
                List.replicate (jobs.length - (calls events).length) []) := by
  constructor
  · intro outcome jobs hmerges hperm
    have hsame : ofIncrements jobs.flatten.flatten = ofIncrements increments :=
      Counters.addAll_perm .empty hperm
    have hcounters : outcome.counters = ofIncrements increments :=
      hmerges.counters_eq.trans hsame
    have hwords : (ofIncrements jobs.flatten.flatten).Fits := by
      intro group name
      rw [hsame, Counters.get_ofIncrements]
      exact hfits group name
    refine ⟨hcounters, ?_, ?_⟩
    · rw [hcounters]
      exact Counters.addsUp_ofIncrements increments
    · rw [hmerges.counters_eq]
      exact Counters.ofJobsInWords?_eq_some hwords
  · intro σ around place registry hlocal jobs hinside output overwrite
      trackPaths start
    obtain ⟨events, hrun, hmerges⟩ :=
      recorded_run_merges hlocal hinside output overwrite trackPaths start []
    rw [List.nil_append] at hrun
    exact ⟨_, _, events, rfl, hrun, hmerges⟩

/-! ### Two filters before a count -/

def filteringChain : Chain where
  plan := {
    mode := .openMaps
    blocks := [⟨0, [Filter.stage "vertices" .vertex (.constant false),
      Filter.stage "aristas" .edge (.constant false), countingStage]⟩,
      ⟨1, [Plan.sampleMap]⟩] }
  options := SortedMap.empty.insert Options.package "stages.jar"
  trackPaths := false

def filteringJobs : List Job :=
  ((filteringChain.compile {} none countingDataset).2.toOption).getD []

private theorem staysInside_filteringJobs :
    ∀ job ∈ filteringJobs, StaysInside job := by
  have hnamed : ∀ job ∈ filteringJobs, ∀ entry ∈ job.output.named,
      '/' ∉ entry.name.toList := by
    decide
  exact fun job hjob => Engine.staysInside_of_named (hnamed job hjob)

def filteringStore : Store :=
  ({} : Store).put ["in"]
    (.file (.text (Engine.countedText ++ Engine.countedText)))

def filteringRun : Except IoError ChainOutcome × Store × List (Event Store) :=
  (Execution.run ordinary.recorded filteringJobs countingDataset.output false
    false).run (filteringStore, [])

theorem run_adds_up_filtered :
    ∃ outcome final,
      (Execution.run ordinary filteringJobs countingDataset.output false
        false).run filteringStore = (.ok outcome, final) ∧
        outcome.failedIndex = some 1 ∧
      outcome.counters.sums = [("filter", "EDGES_FILTERED", 0),
        ("filter", "VERTICES_FILTERED", 2)] ∧
      ∀ other : ChainOutcome,
        other.Merges [[[("filter", "VERTICES_FILTERED", 1)], []],
          [[("filter", "VERTICES_FILTERED", 1),
            ("filter", "EDGES_FILTERED", 0)],
            [("filter", "EDGES_FILTERED", 0)]]] →
        other.counters = outcome.counters := by
  let increments : List Increment := [("filter", "EDGES_FILTERED", 0),
    ("filter", "EDGES_FILTERED", 0), ("filter", "VERTICES_FILTERED", 1),
    ("filter", "VERTICES_FILTERED", 1)]
  have hfits : ∀ group name, amountIn group name increments < 2 ^ 64 := by
    intro group name
    simp only [increments, amountIn_cons, amountIn_nil]
    split_ifs <;> omega
  obtain ⟨htotals, hruns⟩ := run_adds_up hfits
  obtain ⟨result, final, events, hrun, hrecorded, hmerges⟩ :=
    hruns Store ordinary itself .builtin isLocal_ordinary filteringJobs
      staysInside_filteringJobs countingDataset.output false false
    filteringStore
  have hevaluated : (filteringRun.1.toOption.map ChainOutcome.failedIndex,
      (calls filteringRun.2.2).map (Call.tasks .builtin itself)) =
        (some (some 1), [[[("filter", "VERTICES_FILTERED", 1),
          ("filter", "EDGES_FILTERED", 0), ("filter", "VERTICES_FILTERED", 1),
          ("filter", "EDGES_FILTERED", 0)], []], []]) := by
    decide +kernel
  rw [filteringRun, hrecorded] at hevaluated
  obtain ⟨hindex, htasks⟩ := Prod.mk.inj hevaluated
  cases result with
  | error error => cases hindex
  | ok outcome =>
      have hcalls : (calls events).length = 2 := by
        simpa using congrArg List.length htasks
      have hjobs : filteringJobs.length = 2 := by decide
      have hmerged := hmerges outcome rfl
      rw [htasks, hcalls, hjobs] at hmerged
      obtain ⟨htotal, -⟩ := htotals outcome _ hmerged (by decide)
      refine ⟨outcome, final, hrun, Option.some.inj hindex, ?_,
        fun other hother => ?_⟩
      · rw [htotal]
        decide +kernel
      · exact (htotals other _ hother (by decide)).1.trans htotal.symm

end JobChain
