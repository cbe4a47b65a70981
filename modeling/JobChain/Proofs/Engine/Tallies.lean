import JobChain.Proofs.Engine.Jobs

/-!
# What the tasks of a job count

The counters of a job that succeeds are those of its map tasks, of the combiner
behind each of them and of its reduce tasks, merged one behind another. A job
that fails has none.
-/

namespace JobChain

open Counters (ofIncrements ofTasks)

namespace Engine

section

variable (registry : Registry) (job : Job)

def combineAsked (pairs : List Pair) : List (List Action) :=
  if job.hasReduce then job.combiner.toList.map fun name =>
    reduceAskedBy registry job name pairs
  else []

def tasksAsked (inputs : List (List Pair)) : List (List Action) :=
  ((mapAsked registry job inputs).flatMap fun actions =>
    actions :: combineAsked registry job (written actions)) ++
      reduceAsked registry job inputs

def inputsAt (store : Store) : List (List Pair) :=
  match job.input.files store with
  | .error _ => []
  | .ok paths => paths.map (store.recordsAt job.input.format)

end

section

variable {registry : Registry} {job : Job} {between after : Store}

private theorem counters_of_combine {pairs passed : List Pair}
    {behind : Counters} (hreduce : job.hasReduce = true)
    (h : Succeeds (combine registry job pairs) between (behind, passed) after)
    (counters : Counters) : counters.merge behind =
      counters.addAll
        ((combineAsked registry job pairs).flatMap incrementsOf) := by
  unfold combine at h
  unfold combineAsked
  rw [if_pos hreduce]
  cases hcombiner : job.combiner with
  | none =>
      rw [hcombiner] at h
      obtain ⟨heq, rfl⟩ := succeeds_pure_iff.1 h
      rw [← (Prod.mk.inj heq).1]
      rfl
  | some name =>
      simp only [hcombiner] at h
      cases hfunction : registry.findReduce name with
      | error error =>
          rw [hfunction] at h
          exact absurd h not_succeeds_throw
      | ok function =>
          simp only [hfunction, succeeds_bind_iff, succeeds_ofExcept_iff,
            succeeds_pure_iff] at h
          obtain ⟨task, _, ⟨hrun, rfl⟩, heq, rfl⟩ := h
          obtain rfl := ReduceFunction.run_eq_ok hrun
          rw [← (Prod.mk.inj heq).1, Task.counters_performAll_empty,
            Counters.merge_ofIncrements]
          simp [reduceAskedBy, hfunction]

private theorem counters_of_mapAll {functions : List MapFunction} {index : Nat}
    {counters counters' : Counters} {inputs : List (List Pair)}
    {passed : List Pair}
    (hrun : Succeeds
      (mapAll registry job functions index counters inputs) between
      (counters', passed) after) :
    let tasks := inputs.map (FusedRun.ofFunctions functions job.options).asked
    counters' = counters.addAll ((tasks.flatMap fun actions =>
      actions :: combineAsked registry job (written actions)).flatMap
        incrementsOf) := by
  induction inputs generalizing index counters passed between with
  | nil =>
      obtain ⟨heq, -⟩ := succeeds_pure_iff.1 hrun
      exact (Prod.mk.inj heq).1.symm
  | cons records rest ih =>
      obtain ⟨named, -, hcases⟩ := of_mapAll_cons hrun
      simp only [List.map_cons, List.flatMap_cons, List.cons_append,
        List.flatMap_append, Counters.addAll_append]
      rcases hcases with ⟨hreduce, behind, others, hcombine, -,
        hlater⟩ | ⟨hreduce, settled, -, hlater⟩
      · rw [ih hlater, counters_of_combine hreduce hcombine,
          Task.counters_performAll_empty, Counters.merge_ofIncrements]
      · rw [ih hlater, Task.counters_performAll_empty,
          Counters.merge_ofIncrements, combineAsked, if_neg (by simp [hreduce])]
        rfl

variable (hinside : StaysInside job)

include hinside

private theorem counters_of_reduceAll {reducer : String} {index : Nat}
    {counters counters' : Counters} {paths : List Path}
    {parts : List (List Pair)}
    (hreads : List.Forall₂ (fun path pairs => between.read path =
      .ok (.text (RecordFormat.intermediate.write pairs))) paths parts)
    (hbelow : ∀ path ∈ paths, shufflePlace job between.here <+:
      Store.placeOf between.here path)
    (hrun : Succeeds (reduceAll registry job reducer index counters paths)
      between counters' after) :
    let tasks := parts.map fun pairs =>
      reduceAskedBy registry job reducer (reread pairs)
    counters' = counters.addAll (tasks.flatMap incrementsOf) := by
  induction paths generalizing index counters parts between with
  | nil =>
      cases hreads
      exact (succeeds_pure_iff.1 hrun).1.symm
  | cons path paths ih =>
      obtain ⟨pairs, rest, -, -, rfl⟩ := List.forall₂_cons_left_iff.1 hreads
      obtain ⟨named, settled, -, -, -, hreads', hbelow', hlater⟩ :=
        of_reduceAll_cons hinside hreads hbelow hrun
      rw [ih hreads' hbelow' hlater, Task.counters_performAll_empty,
        Counters.merge_ofIncrements]
      exact (Counters.addAll_append ..).symm

private theorem counters_of_runTasks {inputs : List (List Pair)}
    {counters : Counters}
    (h : Succeeds (runTasks registry job inputs) between counters after) :
    counters = ofTasks ((tasksAsked registry job inputs).map incrementsOf) := by
  unfold runTasks at h
  split at h
  · exact absurd h not_succeeds_throw
  rename_i functions hfunctions
  obtain ⟨⟨counters₁, pairs⟩, mapped, hmaps, h⟩ := succeeds_bind_iff.1 h
  have hmapped := counters_of_mapAll hmaps
  have hstart := Table.Stands.start job (rfl : between.here = between.here)
    fun _ => rfl
  obtain ⟨-, -, hpairs⟩ := stands_of_mapAll hinside hstart hmaps
  have hmapAsked : mapAsked registry job inputs =
      inputs.map (FusedRun.ofFunctions functions job.options).asked := by
    simp only [mapAsked, hfunctions]
  rw [← hmapAsked] at hmapped hpairs
  rw [ofTasks, Counters.mergeAll_ofIncrements, ← List.flatMap_def, tasksAsked,
    List.flatMap_append, ofIncrements, Counters.addAll_append]
  change counters = ((Counters.addAll .empty _).addAll _)
  rw [← hmapped]
  cases hreducer : job.reducer with
  | none =>
      simp only [hreducer] at h
      rw [reduceAsked, hreducer]
      exact (succeeds_pure_iff.1 h).1.symm
  | some reducer =>
      simp only [hreducer, succeeds_bind_iff, succeeds_ofStoreM_iff] at h
      obtain ⟨⟨⟩, made, -, paths, shuffle, hwrite, counters₂, reduced, hreduce,
        found, last, -, hanswer⟩ := h
      obtain ⟨rfl, -⟩ := succeeds_pure_iff.1 hanswer
      have hshuffle := shuffles_of_writeShuffle hwrite
      have hreduceSide : job.hasReduce = true := by
        rw [Job.hasReduce, hreducer]; rfl
      rw [counters_of_reduceAll hinside hshuffle.reads hshuffle.below hreduce,
        reduceAsked, hreducer]
      simp only [shuffled, hpairs hreduceSide]

/-- A job that succeeds reports what its tasks have counted, and one that fails
reports nothing. -/
theorem counters_of_runJob {id : String} {report : JobReport}
    (hrun : Succeeds (runJob registry id job) between report after) :
    report.counters =
      if report.status = .succeeded then
        ofTasks
          ((tasksAsked registry job (inputsAt job between)).map incrementsOf)
      else .empty := by
  obtain ⟨paths, inputs, made, hfiles, hreads, -,
    ⟨counters, ran, htasks, -, rfl⟩ |
    ⟨failure, -, rfl⟩⟩ := of_runJob hrun
  · have hinputs : inputsAt job between = inputs := by
      rw [inputsAt, hfiles]
      exact Store.map_recordsAt hreads
    rw [if_pos rfl, hinputs]
    exact counters_of_runTasks hinside htasks
  · exact (if_neg (by simp)).symm

end

end Engine

end JobChain
