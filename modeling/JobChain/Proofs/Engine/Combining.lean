import JobChain.Proofs.Engine.Jobs
import JobChain.Proofs.Engine.Likeness
import JobChain.Proofs.Sums

/-!
# Adding up before the shuffle

A reducer that sums does not tell whether parts of its records have been added
up before. So a job runs alike with a combiner that sums and without it: only
the files of the shuffle hold other records.
-/

namespace JobChain

/-! ## Reducers that sum -/

namespace Builtin

/-- What a reducer that sums asks for, given the sums. -/
def sumActions (action : Pair → Action) (sums : List Pair) : List Action :=
  sums.flatMap fun pair => [action pair, .progress]

theorem asked_sumTo (action : Pair → Action) (options : Options)
    (order : KeyOrder) (pairs : List Pair) :
    (sumTo action).asked options (Group.ofPairs order pairs) =
      sumActions action (Group.sums order pairs) := by
  have hfeed : ∀ groups, ((sumTo action).feed options groups ()).2 =
      sumActions action (groups.map fun group =>
        ⟨group.key, sum group.values⟩) := by
    intro groups
    induction groups with
    | nil => rfl
    | cons group rest ih => exact congrArg (action _ :: .progress :: ·) ih
  change ((sumTo action).feed options (Group.ofPairs order pairs) ()).2 ++ [] =
      _
  rw [hfeed, List.append_nil, Group.sums]

theorem run_sumTo (action : Pair → Action) (options : Options)
    (order : KeyOrder) (pairs : List Pair) (task : Task) :
    (sumTo action).run options (Group.ofPairs order pairs) task =
      .ok (task.performAll (sumActions action (Group.sums order pairs))) := by
  have hrun := @ReduceFunction.run_of_steady (sumTo action) options
    (Group.ofPairs order pairs) (fun _ => rfl) (fun _ _ _ => rfl)
    (fun _ => rfl) task
  rw [hrun, asked_sumTo]

@[simp] theorem written_sumActions_write (sums : List Pair) :
    written (sumActions .write sums) = sums := by
  induction sums with
  | nil => rfl
  | cons pair rest ih => exact congrArg (pair :: ·) ih

@[simp] theorem written_sumActions_writeNamed (output : String)
    (sums : List Pair) :
    written (sumActions (.writeNamed output) sums) = [] := by
  induction sums with
  | nil => rfl
  | cons pair rest ih => exact ih

theorem namedPairs_sumActions_writeNamed (output name : String)
    (sums : List Pair) :
    namedPairs name (sumActions (.writeNamed output) sums) = if output =
      name then sums else [] := by
  induction sums with
  | nil => simp [sumActions]
  | cons pair rest ih =>
      have hcons : sumActions (.writeNamed output) (pair :: rest) =
          .writeNamed output pair :: .progress ::
          sumActions (.writeNamed output) rest := rfl
      rw [hcons, namedPairs_cons, namedPairs_cons, ih]
      by_cases houtput : output = name <;> simp [Action.namedPair?, houtput]

private theorem counters_sumActions_write (task : Task) (sums : List Pair) :
    (task.performAll (sumActions .write sums)).counters = task.counters := by
  induction sums generalizing task with
  | nil => rfl
  | cons pair rest ih => exact ih _

end Builtin

theorem Registry.hasReduce_of_findReduce {registry : Registry} {name : String}
    {function : ReduceFunction} (h : registry.findReduce name = .ok function) :
    registry.hasReduce name = true := by
  unfold findReduce at h
  unfold hasReduce SortedMap.contains
  cases hget : registry.reduces.get? name <;> simp_all

namespace Engine

open Builtin (sumActions run_sumTo asked_sumTo)
open Pair (AreCounts)

/-! ## Jobs that sum -/

/-- A job whose combiner adds up the records of each key, and whose reducer does
so too, in an order of values. -/
structure SumsTwice (registry : Registry) (job : Job) : Prop where
  combiner : ∃ name, job.combiner = some name ∧
      registry.findReduce name = .ok Builtin.sums
  reducer : ∃ name, job.reducer = some name ∧
    (registry.findReduce name = .ok Builtin.sums ∨
      registry.findReduce name = .ok Builtin.sideSums)
  order : orderOf job ≠ .numeric

def plain (job : Job) : Job := { job with combiner := none }

@[simp] theorem maps_plain (job : Job) : (plain job).maps = job.maps := rfl

@[simp] theorem reducer_plain (job : Job) :
    (plain job).reducer = job.reducer := rfl

@[simp] theorem combiner_plain (job : Job) : (plain job).combiner = none := rfl

@[simp] theorem orderOf_plain (job : Job) :
    orderOf (plain job) = orderOf job := rfl

@[simp] theorem hasReduce_plain (job : Job) :
    (plain job).hasReduce = job.hasReduce := rfl

@[simp] theorem writeOutput_plain (job : Job) :
    writeOutput (plain job) = writeOutput job := rfl

@[simp] theorem writeAll_plain (job : Job) (side : Side) (task : Nat) :
    writeAll (plain job) side task = writeAll job side task := by
  funext entries
  induction entries with
  | nil => rfl
  | cons entry rest ih => rw [writeAll, writeAll, writeOutput_plain, ih]

@[simp] theorem combine_plain (registry : Registry) (job : Job)
    (pairs : List Pair) :
    combine registry (plain job) pairs = pure (.empty, pairs) := rfl

section

variable {registry : Registry} {job : Job}

private theorem exists_sumTo {name : String}
    (h : registry.findReduce name = .ok Builtin.sums ∨
    registry.findReduce name = .ok Builtin.sideSums) :
    ∃ action, registry.findReduce name = .ok (Builtin.sumTo action) :=
  h.elim (⟨_, ·⟩) (⟨_, ·⟩)

theorem SumsTwice.hasReduce
    (h : SumsTwice registry job) : job.hasReduce = true := by
  obtain ⟨name, hname, -⟩ := h.reducer
  rw [Job.hasReduce, hname]
  rfl

private theorem missing_plain (hsums : SumsTwice registry job) :
    missing registry (plain job) = missing registry job := by
  obtain ⟨name, hname, hfind⟩ := hsums.combiner
  have hknown := Registry.hasReduce_of_findReduce hfind
  unfold missing
  rw [maps_plain, reducer_plain, combiner_plain, hname]
  simp [hknown]

private theorem combined_of_sums (h : SumsTwice registry job)
    (pairs : List Pair) :
    combined registry job pairs = Group.sums (orderOf job) pairs := by
  obtain ⟨name, hname, hfind⟩ := h.combiner
  unfold combined reduceAskedBy
  simp only [hname, hfind, Builtin.sums, asked_sumTo,
    Builtin.written_sumActions_write]

theorem combine_of_sums (h : SumsTwice registry job) (pairs : List Pair) :
    combine registry job pairs =
      pure (.empty, combined registry job pairs) := by
  obtain ⟨name, hname, hfind⟩ := h.combiner
  have hrun := run_sumTo .write job.reduceView (orderOf job) pairs {}
  have hwritten := Task.emitted_performAll
    {} (sumActions .write (Group.sums (orderOf job) pairs))
  have hcounters :=
    Builtin.counters_sumActions_write {} (Group.sums (orderOf job) pairs)
  rw [Builtin.written_sumActions_write] at hwritten
  rw [combined_of_sums h]
  unfold combine
  simp only [hname, hfind, Builtin.sums, hrun]
  exact congrArg (Pure.pure : _ → Effort (Counters × List Pair))
    (Prod.ext hcounters hwritten)

/-! ## Tasks with and without the combiner -/

variable {here : Place} {differ : Place → Content → Content → Prop}
  {store other : Store}

private theorem mapAll_plain (hsums : SumsTwice registry job)
    (functions : List MapFunction) (index : Nat)
    (counters : Counters) (inputs : List (List Pair))
    (h : Store.Resembles here differ store other) :
    let tasks := inputs.map (FusedRun.ofFunctions functions job.options).asked
    Together (Store.Resembles here differ)
      (fun answer answer' => answer' = (answer.1, tasks.flatMap written) ∧
        answer.2 = tasks.flatMap fun actions =>
          combined registry job (written actions))
      (outcome (mapAll registry job functions index counters inputs) store)
      (outcome (mapAll registry (plain job) functions index counters inputs)
        other) := by
  induction inputs generalizing index counters store other with
  | nil => exact .pure ⟨rfl, rfl⟩ h
  | cons records rest ih =>
      refine (Together.ofExcept h _ _).bind
        fun task task' between between' htask hnear => ?_
      obtain ⟨rfl, htask⟩ := htask
      obtain rfl := FusedRun.runAll_eq_ok htask
      simp only [writeAll_plain, hasReduce_plain, combine_plain,
        if_pos hsums.hasReduce, combine_of_sums hsums, pure_bind]
      refine (hnear.writeAll job _ _ _).bind fun _ _ _ _ _ hnear => ?_
      refine (ih (index + 1) _ hnear).bind
        fun answer answer' _ _ hanswer hlast => ?_
      obtain ⟨rfl, hpassed⟩ := hanswer
      refine .pure ⟨?_, ?_⟩ hlast
      · rw [Task.emitted_performAll]
        rfl
      · rw [hpassed, Task.emitted_performAll]
        rfl

private theorem reduceAll_plain {reducer : String}
    (hreducer : registry.findReduce reducer = .ok Builtin.sums ∨
      registry.findReduce reducer = .ok Builtin.sideSums)
    (hdiffer : ∀ path content content',
      differ (Store.placeOf here path) content content' →
      Matches
        (fun pairs pairs' => Group.sums (orderOf job) pairs' =
          Group.sums (orderOf job) pairs)
        (RecordFormat.intermediate.read path content)
        (RecordFormat.intermediate.read path content'))
    (index : Nat) (counters : Counters) (paths : List Path)
    (h : Store.Resembles here differ store other) :
    Together (Store.Resembles here differ) Eq
      (outcome (reduceAll registry job reducer index counters paths) store)
      (outcome (reduceAll registry (plain job) reducer index counters paths)
        other) := by
  obtain ⟨action, hfind⟩ := exists_sumTo hreducer
  induction paths generalizing index counters store other with
  | nil => exact .pure rfl h
  | cons path rest ih =>
      have hload := (h.load (hdiffer path) fun _ => rfl).ofStoreM.within
        ("leyendo partición " ++ path.text)
      refine hload.bind fun pairs pairs' _ _ hpairs hnear => ?_
      have hrun := run_sumTo action job.reduceView (orderOf job) pairs {}
      have hrun' :=
        run_sumTo action (plain job).reduceView (orderOf (plain job)) pairs' {}
      rw [orderOf_plain, hpairs] at hrun'
      simp only [hfind, orderOf_plain, hrun, hrun', writeAll_plain,
        writeOutput_plain]
      refine (Together.ofExcept hnear _ _).bind
        fun task task' _ _ htask hnear => ?_
      obtain ⟨rfl, -⟩ := htask
      refine (hnear.writeAll job _ _ _).bind fun _ _ _ _ _ hnear => ?_
      refine (hnear.writeOutput job _ _ _ _).bind fun _ _ _ _ _ hnear => ?_
      exact ih (index + 1) _ hnear

/-! ## The shuffle with and without the combiner -/

variable {inputs : List (List Pair)}

theorem returns_partition {pairs : List Pair} (h : AreCounts pairs)
    (count index : Nat) : ∀ pair ∈ partition count index pairs, pair.Returns :=
  (h.filter fun key => partitionOf count key = index).returns

theorem shuffled_plain (registry : Registry) (job : Job)
    (inputs : List (List Pair)) :
    shuffled registry (plain job) inputs =
      (mapAsked registry job inputs).flatMap written := rfl

/-- What the files of the shuffle hold with the combiner and without it. -/
def Shuffled (registry : Registry) (job : Job) (inputs : List (List Pair))
    (here place : Place) (content content' : Content) : Prop :=
  ∃ index, place = shufflePlace job here ++ [shuffleName index] ∧
    content = .text (RecordFormat.intermediate.write
      (partition (max job.reduceTasks 1) index
        (shuffled registry job inputs))) ∧
    content' = .text (RecordFormat.intermediate.write
      (partition (max job.reduceTasks 1) index
        (shuffled registry (plain job) inputs)))

section

variable (hsums : SumsTwice registry job)
  (hcounts : AreCounts ((mapAsked registry job inputs).flatMap written))

include hsums

private theorem shuffled_of_sums : shuffled registry job inputs =
    ((mapAsked registry job inputs).map written).flatMap
      (Group.sums (orderOf job)) := by
  rw [List.flatMap_map]
  exact List.flatMap_congr fun actions _ =>
    combined_of_sums hsums (written actions)

include hcounts

theorem areCounts_shuffled : AreCounts (shuffled registry job inputs) := by
  rw [shuffled_of_sums hsums]
  exact Group.areCounts_flatMap_sums hsums.order (by rwa [← List.flatMap_def])

/-- Each partition has the same sums. -/
theorem sums_partition (count index : Nat) :
    Group.sums (orderOf job)
      (partition count index (shuffled registry (plain job) inputs)) =
      Group.sums (orderOf job)
        (partition count index (shuffled registry job inputs)) := by
  have hall :=
    @Group.sums_flatMap_sums _ ((mapAsked registry job inputs).map written)
      hsums.order
    (by rwa [← List.flatMap_def])
  rw [← shuffled_of_sums hsums, ← List.flatMap_def] at hall
  have hfilter := Group.sums_filter hsums.order hcounts fun key =>
    partitionOf count key = index
  have hfilter' :=
    Group.sums_filter hsums.order (areCounts_shuffled hsums hcounts) fun key =>
      partitionOf count key = index
  exact hfilter.trans (hall ▸ hfilter'.symm)

/-! ## Jobs with and without the combiner -/

private theorem read_shuffled {path : Path} {content content' : Content}
    (h : Shuffled registry job inputs here (Store.placeOf here path) content
      content') :
    Matches (fun pairs pairs' => Group.sums (orderOf job) pairs' =
      Group.sums (orderOf job) pairs)
        (RecordFormat.intermediate.read path content)
      (RecordFormat.intermediate.read path content') := by
  obtain ⟨index, -, rfl, rfl⟩ := h
  rw [RecordFormat.read_write_intermediate
      (returns_partition (areCounts_shuffled hsums hcounts) _ _),
    shuffled_plain,
    RecordFormat.read_write_intermediate (returns_partition hcounts _ _)]
  exact .ok (sums_partition hsums hcounts (max job.reduceTasks 1) index)

private theorem runTasks_plain
    (h : Store.Resembles here (Shuffled registry job inputs here) store other) :
    Together (Store.Resembles here (Shuffled registry job inputs here)) Eq
      (outcome (runTasks registry job inputs) store)
      (outcome (runTasks registry (plain job) inputs) other) := by
  obtain ⟨reducer, hreducer, hfind⟩ := hsums.reducer
  unfold runTasks
  rw [maps_plain, reducer_plain]
  cases hfunctions : registry.findMaps job.maps with
  | error error => exact .throw h _
  | ok functions =>
      have hasked :
          inputs.map (FusedRun.ofFunctions functions job.options).asked =
          mapAsked registry job inputs := by
        simp only [mapAsked, hfunctions]
      simp only [hreducer]
      refine (mapAll_plain hsums functions 0 _ inputs h).bind
        fun answer answer' _ _ hanswer h => ?_
      rw [hasked] at hanswer
      obtain ⟨rfl, hpassed⟩ := hanswer
      refine ((h.makeDirectories _).ofStoreM).bind fun _ _ _ _ _ h => ?_
      have hshuffle := h.writeShuffle 0 (max job.reduceTasks 1) fun index =>
        ⟨index, by rw [placeOf_shufflePath, placeOf_shuffleDirectory], rfl, rfl⟩
      rw [← List.range_eq_range', ← partitions_eq, ← partitions_eq,
        shuffled_plain] at hshuffle
      rw [hpassed]
      refine hshuffle.bind fun paths paths' _ _ hpaths h => ?_
      subst hpaths
      have hreduce :=
        reduceAll_plain hfind
          (fun _ _ _ => read_shuffled hsums hcounts) 0 answer.1 paths h
      refine hreduce.bind fun counters counters' _ _ hcounters h => ?_
      subst hcounters
      exact ((h.delete _ true).ofStoreM).bind fun _ _ _ _ _ h => .pure rfl h

private theorem tryTasks_plain
    (h : Store.Resembles here (Shuffled registry job inputs here) store other) :
    Together (Store.Resembles here (Shuffled registry job inputs here))
      (Matches Eq) (outcome (tryTasks registry job inputs) store)
      (outcome (tryTasks registry (plain job) inputs) other) := by
  unfold tryTasks
  rw [show outgrowsMemory (plain job) = outgrowsMemory job from rfl]
  split_ifs
  · exact .throw h _
  · exact (runTasks_plain hsums hcounts h).attempt

private theorem runOn_plain (id : String) :
    Together
      (Store.Resembles store.here (Shuffled registry job inputs store.here)) Eq
      (outcome (runOn registry id job inputs) store)
      (outcome (runOn registry id (plain job) inputs) store) := by
  have h :
      Store.Resembles store.here (Shuffled registry job inputs store.here) store
        store :=
    .refl store
  refine ((h.makeDirectories _).ofStoreM).bind fun _ _ _ _ _ h => ?_
  refine (tryTasks_plain hsums hcounts h).bind
    fun result result' _ _ hresult h => ?_
  cases hresult with
  | error failure => exact .pure rfl h
  | ok hcounters =>
      subst hcounters
      exact Together.bind (Together.ofStoreM (h.change (h.write _ (.inl rfl))))
        fun _ _ _ _ _ h => .pure rfl h

private theorem reduceAsked_plain :
    reduceAsked registry (plain job) inputs =
      reduceAsked registry job inputs := by
  obtain ⟨reducer, hreducer, hfind⟩ := hsums.reducer
  obtain ⟨action, hfind⟩ := exists_sumTo hfind
  unfold reduceAsked
  rw [reducer_plain, hreducer]
  simp only [partitions_eq, List.map_map]
  apply List.map_congr_left
  intro index _
  simp only [Function.comp_apply]
  rw [reread_eq (returns_partition (areCounts_shuffled hsums hcounts) _ _),
    shuffled_plain, reread_eq (returns_partition hcounts _ _)]
  simp only [reduceAskedBy, hfind, asked_sumTo]
  exact congrArg (sumActions action)
    (sums_partition hsums hcounts (max job.reduceTasks 1) index)

end

/-- A job whose combiner and whose reducer add up counts leaves the same without
the combiner: the same in each output of each task, and where it runs, the same
report, or the same failure, and the same store but for the files of the
shuffle. -/
theorem runs_alike_without_combiner (hsums : SumsTwice registry job)
    (hcounts : AreCounts ((mapAsked registry job inputs).flatMap written)) :
    tableOf registry (plain job) inputs = tableOf registry job inputs ∧
      ∀ id store paths, job.input.files store = .ok paths →
        List.Forall₂ (store.Reads job.input.format) paths inputs →
        Together (Store.Resembles store.here fun place _ _ =>
          shufflePlace job store.here <+: place) Eq
            (outcome (runJob registry id job) store)
            (outcome (runJob registry id (plain job)) store) := by
  constructor
  · funext side task output
    cases side with
    | map => rfl
    | reduce => simp only [tableOf, reduceAsked_plain hsums hcounts]
  · intro id store paths hpaths hreads
    have hbelow : ∀ place content content',
        Shuffled registry job inputs store.here place content content' →
          shufflePlace job store.here <+: place := by
      rintro _ _ _ ⟨index, rfl, -, -⟩
      exact List.prefix_append ..
    by_cases hknown : (missing registry job).isEmpty = true
    · have hplain := @outcome_runJob registry (plain job) store paths inputs id
        (by rwa [missing_plain hsums]) hpaths hreads
      rw [outcome_runJob id hknown hpaths hreads, hplain]
      obtain ⟨hanswers, hstores⟩ := runOn_plain hsums hcounts id
      exact ⟨hanswers, hstores.mono hbelow⟩
    · unfold runJob
      rw [missing_plain hsums]
      have hunknown : (!(missing registry job).isEmpty) = true := by
        simpa using hknown
      rw [if_pos hunknown, if_pos hunknown]
      exact .throw (.refl store) _

end

/-! ## A job that sums twice -/

def summingJob : Job := { countingJob with combiner := some "sum" }

def sharedStore : Store :=
  ({} : Store).put ["in"] (.file (.text (countedText ++ countedText)))

def sharedInputs : List (List Pair) := [[countedRecord, countedRecord]]

def sharedCounts : List Pair := List.replicate 2 ⟨.string "a", .ofNat 2⟩

private theorem written_sharedInputs :
    (mapAsked .builtin summingJob sharedInputs).map written =
      [sharedCounts] := by
  decide +kernel

private theorem areCounts_sharedCounts : AreCounts sharedCounts := by
  refine ⟨fun pair hpair => ?_, fun pair hpair => ?_, fun key => ?_⟩
  · rw [List.eq_of_mem_replicate hpair]
    exact ⟨trivial, rfl, by decide⟩
  · rw [List.eq_of_mem_replicate hpair]
    decide +kernel
  · by_cases hkey : .string "a" = key
    · subst hkey
      decide +kernel
    · simp [sharedCounts, Pair.total, hkey]

private theorem sums_sharedCounts :
    Group.sums .natural sharedCounts = [⟨.string "a", .ofNat 4⟩] := by
  have hsorted : Pair.sort .natural sharedCounts = sharedCounts :=
    List.mergeSort_of_pairwise (by decide +kernel)
  rw [Group.sums, Group.ofPairs, hsorted]
  decide +kernel

theorem runs_alike_without_combiner_shared :
    shuffled .builtin summingJob sharedInputs = [⟨.string "a", .ofNat 4⟩] ∧
      shuffled .builtin (plain summingJob) sharedInputs = sharedCounts ∧
      tableOf .builtin (plain summingJob) sharedInputs =
        tableOf .builtin summingJob sharedInputs ∧
      Together (Store.Resembles [] fun place _ _ => ["out",
        temporaryDirectory] <+: place) Eq
          (outcome (runJob .builtin "" summingJob) sharedStore)
        (outcome (runJob .builtin "" (plain summingJob)) sharedStore) := by
  have hsums : SumsTwice .builtin summingJob :=
    ⟨⟨"sum", rfl, rfl⟩, ⟨"sum", rfl, .inl rfl⟩, by decide⟩
  have hwritten : (mapAsked .builtin summingJob sharedInputs).flatMap written =
      sharedCounts := by
    rw [List.flatMap_def, written_sharedInputs, List.flatten_singleton]
  obtain ⟨htable, hruns⟩ :=
    runs_alike_without_combiner hsums (hwritten ▸ areCounts_sharedCounts)
  have hpaths : (summingJob.input.files sharedStore) = .ok [⟨"in"⟩] := by
    decide +kernel
  have hreads :
      List.Forall₂ (sharedStore.Reads summingJob.input.format)
        [⟨"in"⟩] sharedInputs :=
    .cons ⟨_, rfl, by decide +kernel⟩ .nil
  refine ⟨?_, hwritten, htable, hruns "" sharedStore _ hpaths hreads⟩
  rw [shuffled_of_sums hsums, written_sharedInputs, List.flatMap_singleton]
  exact sums_sharedCounts

end Engine

end JobChain
