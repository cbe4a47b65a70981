import JobChain.Proofs.Engine.Shuffle
import JobChain.Proofs.Store.Deletions

/-!
# The files of a job

A job that succeeds has left one file for each output of each task that has some
records, all of them in the order in which they were written, and nothing else.
What its tasks ask for is determined by the records of its input files.
-/

namespace JobChain.Engine

open Path (isStep)

/-! ## What the tasks of a job ask for -/

section

variable (registry : Registry) (job : Job)

def mapAsked (inputs : List (List Pair)) : List (List Action) :=
  match registry.findMaps job.maps with
  | .error _ => []
  | .ok functions => inputs.map fun records =>
      (FusedRun.ofFunctions functions job.options).asked records

def reduceAskedBy (name : String) (pairs : List Pair) : List Action :=
  match registry.findReduce name with
  | .error _ => []
  | .ok function =>
      function.asked job.reduceView (Group.ofPairs (orderOf job) pairs)

def combined (pairs : List Pair) : List Pair :=
  match job.combiner with
  | none => pairs
  | some name => written (reduceAskedBy registry job name pairs)

def shuffled (inputs : List (List Pair)) : List Pair :=
  (mapAsked registry job inputs).flatMap fun actions =>
    combined registry job (written actions)

def reduceAsked (inputs : List (List Pair)) : List (List Action) :=
  match job.reducer with
  | none => []
  | some name =>
      (partitions (max job.reduceTasks 1) (shuffled registry job inputs)).map
        fun pairs =>
      reduceAskedBy registry job name (reread pairs)

/-- What all outputs of all tasks leave. Map tasks write to the main output when
there is no reduce side. -/
def tableOf (inputs : List (List Pair)) : Table
  | .map, task, output =>
      (mapAsked registry job inputs)[task]?.elim [] fun actions =>
        kept (!job.hasReduce) actions output
  | .reduce, task, output =>
      (reduceAsked registry job inputs)[task]?.elim [] fun actions =>
        kept true actions output

end

/-! ## Tables of tasks -/

namespace Table

def putTasks (side : Side) (main : Bool) :
    Table → Nat → List (List Action) → Table
  | table, _, [] => table
  | table, index, actions :: rest =>
      putTasks side main (table.putTask side index main actions)
        (index + 1) rest

private theorem putTask_other {table : Table} {side side' : Side}
    {task task' : Nat} {main : Bool} {actions : List Action}
    (h : ¬(side' = side ∧ task' = task)) (output : String) :
    table.putTask side task main actions side' task' output =
      table side' task' output :=
  if_neg fun hall => h hall.2

private theorem putTask_self {table : Table} {side : Side} {task : Nat}
    {main : Bool} {actions : List Action} {output : String}
    (hfree : table side task output = []) :
    table.putTask side task main actions side task output =
      kept main actions output := by
  unfold putTask
  split_ifs with hleft
  · rfl
  · rw [hfree]
    exact (not_not.1 fun hne => hleft ⟨hne, rfl, rfl⟩).symm

private theorem putTasks_eq {side : Side} {main : Bool} {table : Table}
    {index : Nat} {tasks : List (List Action)}
    (hfree : ∀ task ≥ index, ∀ output, table side task output = []) :
    table.putTasks side main index tasks = fun side' task output =>
      if side' = side ∧ index ≤ task then
        tasks[task - index]?.elim [] fun actions => kept main actions output
      else table side' task output := by
  induction tasks generalizing table index with
  | nil =>
      funext side' task output
      split_ifs with hlater
      · obtain ⟨rfl, hindex⟩ := hlater
        exact hfree task hindex output
      · rfl
  | cons actions rest ih =>
      have hfree' : ∀ task ≥ index + 1, ∀ output,
          table.putTask side index main actions side task output =
            [] := fun task hindex output => by
        rw [putTask_other (by omega)]
        exact hfree task (by omega) output
      rw [putTasks, ih hfree']
      funext side' task output
      by_cases hside : side' = side
      · subst hside
        rcases Nat.lt_trichotomy task index with hbefore | rfl | hbehind
        · rw [if_neg (by omega), if_neg (by omega), putTask_other (by omega)]
        · rw [if_neg (by omega), if_pos ⟨rfl, Nat.le_refl _⟩, Nat.sub_self,
            putTask_self (hfree task (Nat.le_refl _) output)]
          rfl
        · rw [if_pos ⟨rfl, hbehind⟩, if_pos ⟨rfl, by omega⟩,
            (by omega : task - index = task - (index + 1) + 1),
            List.getElem?_cons_succ]
      · rw [if_neg fun h => hside h.1, if_neg fun h => hside h.1,
          putTask_other fun h => hside h.1]

private theorem tableOf_eq (registry : Registry) (job : Job)
    (inputs : List (List Pair)) : tableOf registry job inputs =
      putTasks .reduce true
        (putTasks .map (!job.hasReduce)
          (fun _ _ _ => []) 0 (mapAsked registry job inputs)) 0
        (reduceAsked registry job inputs) := by
  have hmaps := @putTasks_eq .map (!job.hasReduce) (fun _ _ _ => []) 0
    (mapAsked registry job inputs) fun _ _ _ => rfl
  rw [hmaps, putTasks_eq fun task _ output => rfl]
  funext side task output
  cases side <;> simp [tableOf]

end Table

/-! ## Map tasks -/

section

variable {registry : Registry} {job : Job} {before between after : Store}

private theorem of_combine {pairs passed : List Pair} {counters : Counters}
    (h : Succeeds (combine registry job pairs) between
      (counters, passed) after) :
    passed = combined registry job pairs ∧ between = after := by
  unfold combine at h
  unfold combined reduceAskedBy
  cases hcombiner : job.combiner with
  | none =>
      rw [hcombiner] at h
      obtain ⟨heq, rfl⟩ := succeeds_pure_iff.1 h
      exact ⟨(Prod.mk.inj heq).2.symm, rfl⟩
  | some name =>
      simp only [hcombiner] at h ⊢
      cases hfunction : registry.findReduce name with
      | error error =>
          rw [hfunction] at h
          exact absurd h not_succeeds_throw
      | ok function =>
          simp only [hfunction, succeeds_bind_iff, succeeds_ofExcept_iff,
            succeeds_pure_iff] at h ⊢
          obtain ⟨task, _, ⟨hrun, rfl⟩, heq, rfl⟩ := h
          obtain rfl := ReduceFunction.run_eq_ok hrun
          rw [← (Prod.mk.inj heq).2, and_iff_left rfl]
          exact Task.emitted_performAll {} _

/-- One map task, and those behind it: what the task has written goes through
the combiner to the shuffle if there is a reduce side, and else to the main
output. -/
theorem of_mapAll_cons {functions : List MapFunction} {index : Nat}
    {counters counters' : Counters} {records : List Pair}
    {rest : List (List Pair)} {passed : List Pair}
    (hrun : Succeeds
      (mapAll registry job functions index counters (records :: rest)) between
      (counters', passed) after) :
    let actions := (FusedRun.ofFunctions functions job.options).asked records
    let task := ({} : Task).performAll actions
    ∃ named,
      Succeeds (writeAll job .map index task.named.toList) between () named ∧
      ((job.hasReduce = true ∧ ∃ behind others,
          Succeeds (combine registry job (written actions)) named
            (behind, combined registry job (written actions)) named ∧
          passed = combined registry job (written actions) ++ others ∧
          Succeeds (mapAll registry job functions (index + 1)
            ((counters.merge task.counters).merge behind) rest) named
            (counters', others) after) ∨
        (job.hasReduce = false ∧ ∃ settled,
          Succeeds (writeOutput job .map index mainOutput task.emitted.toList)
            named () settled ∧
          Succeeds (mapAll registry job
            functions (index + 1) (counters.merge task.counters) rest) settled
            (counters', passed) after)) := by
  simp only [mapAll, succeeds_bind_iff, succeeds_ofExcept_iff] at hrun
  obtain ⟨task, _, ⟨htask, rfl⟩, ⟨⟩, named, hnamed, hrun⟩ := hrun
  obtain rfl := FusedRun.runAll_eq_ok htask
  refine ⟨named, hnamed, ?_⟩
  cases hreduce : job.hasReduce with
  | true =>
      rw [if_pos hreduce] at hrun
      simp only [succeeds_bind_iff, succeeds_pure_iff] at hrun
      obtain ⟨⟨behind, sent⟩, _, hcombine, ⟨counters₂, others⟩, last, hlater,
          heq, rfl⟩ := hrun
      rw [Task.emitted_performAll] at hcombine
      obtain ⟨rfl, rfl⟩ := of_combine hcombine
      obtain ⟨rfl, rfl⟩ := Prod.mk.inj heq
      exact .inl ⟨rfl, behind, others, hcombine, rfl, hlater⟩
  | false =>
      rw [if_neg (by simp [hreduce])] at hrun
      obtain ⟨⟨⟩, settled, hwrite, hlater⟩ := succeeds_bind_iff.1 hrun
      exact .inr ⟨rfl, settled, hwrite, hlater⟩

variable (hinside : StaysInside job)

include hinside

theorem stands_of_mapAll {functions : List MapFunction} {table : Table}
    {index : Nat} {counters counters' : Counters} {inputs : List (List Pair)}
    {passed : List Pair} (h : table.Stands job before between)
    (hrun : Succeeds
      (mapAll registry job functions index counters inputs) between
      (counters', passed) after) :
    let tasks := inputs.map (FusedRun.ofFunctions functions job.options).asked
    (table.putTasks .map (!job.hasReduce) index tasks).Stands job before after ∧
      SparesShuffle job between after ∧
      (job.hasReduce = true →
        passed = tasks.flatMap fun actions =>
          combined registry job (written actions)) := by
  induction inputs
    generalizing table index counters counters' passed between with
  | nil =>
      obtain ⟨heq, rfl⟩ := succeeds_pure_iff.1 hrun
      exact ⟨h, .refl job _, fun _ => (Prod.mk.inj heq).2.symm⟩
  | cons records rest ih =>
      obtain ⟨named, hnamed, hcases⟩ := of_mapAll_cons hrun
      have hstood := h.putNamed hinside hnamed
      have hspares := sparesShuffle_of_writeAll hinside hnamed
      rcases hcases with ⟨hreduce, behind, others, -, rfl, hlater⟩ | ⟨hreduce,
        settled, hwrite, hlater⟩
      · rw [hreduce] at ih ⊢
        obtain ⟨hstands, hspares', hpassed⟩ := ih hstood hlater
        refine ⟨hstands, hspares.trans hspares', fun _ => ?_⟩
        rw [hpassed rfl]
        rfl
      · rw [hreduce] at ih ⊢
        obtain ⟨hstands, hspares', -⟩ :=
          ih (hstood.putMain hinside hwrite) hlater
        have hmine :=
          hspares.trans (sparesShuffle_of_writeOutput hinside hwrite)
        exact ⟨hstands, hmine.trans hspares', by simp⟩

/-! ## Reduce tasks -/

omit hinside in
theorem SparesShuffle.read_eq_ok (h : SparesShuffle job between after)
    {path : Path} {content : Content}
    (hbelow : shufflePlace job between.here <+: Store.placeOf between.here path)
    (hread : between.read path = .ok content) : after.read path = .ok content :=
  h.toBuilds.read_eq_ok hread (h.kept _ hbelow)

theorem of_reduceAll_cons {reducer : String} {index : Nat}
    {counters counters' : Counters} {path : Path} {paths : List Path}
    {pairs : List Pair} {rest : List (List Pair)}
    (hreads : List.Forall₂ (fun path pairs => between.read path =
      .ok (.text (RecordFormat.intermediate.write pairs))) (path :: paths)
        (pairs :: rest))
    (hbelow : ∀ other ∈ path :: paths,
      shufflePlace job between.here <+: Store.placeOf between.here other)
    (hrun : Succeeds
      (reduceAll registry job reducer index counters (path :: paths))
      between counters' after) :
    let task :=
      ({} : Task).performAll
        (reduceAskedBy registry job reducer (reread pairs))
      ∃ named settled,
        Succeeds (writeAll job .reduce index task.named.toList) between
          () named ∧
      Succeeds (writeOutput job .reduce index mainOutput task.emitted.toList)
        named () settled ∧
      SparesShuffle job between settled ∧
      List.Forall₂ (fun path pairs => settled.read path =
        .ok (.text (RecordFormat.intermediate.write pairs))) paths rest ∧
      (∀ other ∈ paths, shufflePlace job settled.here <+:
        Store.placeOf settled.here other) ∧
      Succeeds
        (reduceAll registry job reducer (index + 1)
          (counters.merge task.counters) paths) settled
        counters' after := by
  obtain ⟨hread, hothers⟩ := List.forall₂_cons.1 hreads
  obtain ⟨-, hbelow⟩ := List.forall_mem_cons.1 hbelow
  simp only [reduceAll, succeeds_bind_iff, succeeds_within_iff,
    succeeds_ofStoreM_iff, Store.succeeds_load_iff] at hrun
  obtain ⟨loaded, _, ⟨rfl, content, hcontent, hloaded⟩, hrun⟩ := hrun
  obtain rfl : content = _ := Except.ok.inj (hcontent.symm.trans hread)
  obtain rfl := reread_eq_of_read hloaded
  split at hrun
  · exact absurd hrun not_succeeds_throw
  · rename_i function hfunction
    simp only [succeeds_bind_iff, succeeds_ofExcept_iff] at hrun
    obtain ⟨task, _, ⟨htask, rfl⟩, ⟨⟩, named, hnamed, ⟨⟩, settled, hmain,
        hlater⟩ := hrun
    obtain rfl := ReduceFunction.run_eq_ok htask
    have hasked : reduceAskedBy registry job reducer (reread pairs) =
        function.asked job.reduceView
          (Group.ofPairs (orderOf job) (reread pairs)) := by
      simp only [reduceAskedBy, hfunction]
    have hspares := (sparesShuffle_of_writeAll hinside hnamed).trans
      (sparesShuffle_of_writeOutput hinside hmain)
    have hreads' : List.Forall₂ (fun path pairs => settled.read path =
        .ok (.text (RecordFormat.intermediate.write pairs))) paths rest :=
      ((List.forall₂_and_left _ _).2 ⟨hbelow, hothers⟩).imp fun _ _ h =>
        hspares.read_eq_ok h.1 h.2
    rw [hasked]
    exact ⟨named, settled, hnamed, hmain, hspares, hreads',
      hspares.here_eq ▸ hbelow, hlater⟩

private theorem stands_of_reduceAll {reducer : String} {table : Table}
    {index : Nat} {counters counters' : Counters} {paths : List Path}
    {parts : List (List Pair)} (h : table.Stands job before between)
    (hreads : List.Forall₂ (fun path pairs => between.read path =
      .ok (.text (RecordFormat.intermediate.write pairs))) paths parts)
    (hbelow : ∀ path ∈ paths, shufflePlace job between.here <+:
      Store.placeOf between.here path)
    (hrun : Succeeds (reduceAll registry job reducer index counters paths)
      between counters' after) :
    let tasks := parts.map fun pairs =>
      reduceAskedBy registry job reducer (reread pairs)
    (table.putTasks .reduce true index tasks).Stands job before after ∧
      SparesShuffle job between after := by
  induction paths generalizing table index counters parts between with
  | nil =>
      cases hreads
      obtain ⟨-, rfl⟩ := succeeds_pure_iff.1 hrun
      exact ⟨h, .refl job _⟩
  | cons path paths ih =>
      obtain ⟨pairs, rest, -, -, rfl⟩ := List.forall₂_cons_left_iff.1 hreads
      obtain ⟨named, settled, hnamed, hmain, hspares, hreads', hbelow',
          hlater⟩ :=
        of_reduceAll_cons hinside hreads hbelow hrun
      have hstood := (h.putNamed hinside hnamed).putMain hinside hmain
      obtain ⟨hstands, hspares'⟩ := ih hstood hreads' hbelow' hlater
      exact ⟨hstands, hspares.trans hspares'⟩

/-! ## The directory for the shuffle -/

omit hinside in
theorem placeOf_shuffleDirectory (job : Job) (here : Place) :
    Store.placeOf here (job.output.location.child temporaryDirectory) =
      shufflePlace job here :=
  Store.placeOf_child _ (by decide) (by decide) (by decide) here

omit hinside in
theorem Shuffles.below {index : Nat} {parts : List (List Pair)}
    {paths : List Path}
    (h : Shuffles (job.output.location.child temporaryDirectory) index parts
      paths before after) :
    ∀ path ∈ paths, shufflePlace job after.here <+:
      Store.placeOf after.here path := by
  rw [h.paths_eq]
  intro path hpath
  obtain ⟨index, -, rfl⟩ := List.mem_map.1 hpath
  rw [placeOf_shufflePath, placeOf_shuffleDirectory]
  exact List.prefix_append ..

omit hinside in
private theorem text_shuffleDirectory_ne :
    (job.output.location.child temporaryDirectory).text ≠ "" := by
  rw [Path.text_child _ (by decide)]
  simp [temporaryDirectory]

omit hinside in
private theorem isDirectory_of_makeDirectories {path : Path}
    (hne : path.text ≠ "")
    (h : Succeeds (Store.makeDirectories path) between () after) :
    Store.Grows between after ∧ after.isDirectory path = true := by
  have hmake : outcome (Store.makeDirectories path) between =
      (.ok (), after) := h
  obtain ⟨hgrows, hdirectory⟩ := Store.makeDirectories_spec path between
  rw [show (Store.makeDirectories path between).2 =
    after from congrArg Prod.snd hmake]
    at hgrows hdirectory
  exact ⟨hgrows, (hdirectory (congrArg Prod.fst hmake)).resolve_left hne⟩

omit hinside in
private theorem fileAt?_of_delete {found : Bool} (htree : Store.IsTree between)
    (hdirectory : between.isDirectory
      (job.output.location.child temporaryDirectory) = true)
    (hdelete : Succeeds
      (Store.delete (job.output.location.child temporaryDirectory) true) between
      found after) :
    after.here = between.here ∧ ∀ place, after.fileAt? place =
      if shufflePlace job between.here <+: place then none
      else between.fileAt? place := by
  obtain ⟨way, hway, hpieces⟩ := job.output.location.pieces_child
  have hslash : '/' ∉ temporaryDirectory.toList := by decide
  have hname : IsName temporaryDirectory :=
    ⟨by decide, by decide, by decide, hslash, by decide, by decide⟩
  obtain ⟨-, hopen⟩ := Store.isDirectory_iff.1 hdirectory
  have hplace := hopen.directories _ (Store.placeFrom_mem_walkFrom _ _)
  rw [Path.steps_child _ hslash] at hopen
  have hok :
    outcome (Store.delete (job.output.location.child temporaryDirectory) true)
      between =
    (.ok found, after) := hdelete
  have hloses := Store.delete_of_name htree hname (hpieces _ hslash) (hway ▸
    hopen.left) (congrArg Prod.fst hok)
  rw [show (Store.delete _ true between).2 = after from congrArg Prod.snd hok,
    placeOf_shuffleDirectory] at hloses
  refine ⟨hloses.here_eq, fun place => ?_⟩
  change between.node? (Store.placeOf between.here _) = _ at hplace
  rw [placeOf_shuffleDirectory] at hplace
  split_ifs with hbelow
  · by_cases hself : place = shufflePlace job between.here
    · by_cases hgone : after.node? place = none
      · simp [Store.fileAt?, hgone]
      · rw [Store.fileAt?_congr (hloses.ne_none hgone).2, hself,
          Store.fileAt?, hplace]
    · have hgone := hloses.gone place ⟨hbelow, fun h => absurd h hself⟩
      simp [Store.fileAt?, hgone]
  · exact Store.fileAt?_congr (hloses.kept place fun h => hbelow h.1)

end

/-! ## All tasks -/

section

variable {registry : Registry} {job : Job} {store after : Store}

private theorem stands_of_shuffle {mapped made written reduced : Store}
    {reducer : String} {table : Table} {parts : List (List Pair)}
    {paths : List Path} {counters counters' : Counters} {found : Bool}
    (hinside : StaysInside job) (htree : Store.IsTree store)
    (hstands : table.Stands job store mapped)
    (hspares : SparesShuffle job store mapped)
    (hmake : Succeeds
      (Store.makeDirectories (job.output.location.child temporaryDirectory))
      mapped () made)
    (hwrite : Succeeds
      (writeShuffle (job.output.location.child temporaryDirectory) 0 parts) made
      paths written)
    (hreduce : Succeeds (reduceAll registry job reducer 0 counters paths)
      written counters' reduced)
    (hdelete : Succeeds
      (Store.delete (job.output.location.child temporaryDirectory) true) reduced
      found after) :
    let tasks := parts.map fun pairs =>
      reduceAskedBy registry job reducer (reread pairs)
    Store.IsTree after ∧
    (table.putTasks .reduce true 0 tasks).Stands job store after ∧
      ∀ place, shufflePlace job store.here <+: place →
        after.fileAt? place = none := by
  obtain ⟨hgrows, hdirectory⟩ :=
    isDirectory_of_makeDirectories text_shuffleDirectory_ne hmake
  have hshuffle := shuffles_of_writeShuffle hwrite
  have hhere : made.here = store.here := hgrows.here_eq.trans hspares.here_eq
  have hothers := hshuffle.others
  rw [placeOf_shuffleDirectory, hhere] at hothers
  have hmade := hstands.shuffled hgrows.here_eq fun place _ =>
    hgrows.fileAt?_eq place
  have hwritten := hmade.shuffled hshuffle.here_eq fun place haside =>
    hothers place fun other _ heq => haside (heq ▸ List.prefix_append ..)
  obtain ⟨hreduced, hspares'⟩ :=
    stands_of_reduceAll hinside hwritten hshuffle.reads hshuffle.below hreduce
  have hlater := hshuffle.toBuilds.trans hspares'.toBuilds
  have htree' :=
    (hspares.toBuilds.trans (hgrows.builds.trans hlater)).isTree htree
  have hthere :
      reduced.isDirectory (job.output.location.child temporaryDirectory) =
        true := by
    rw [Store.isDirectory_iff] at hdirectory ⊢
    rw [hlater.here_eq]
    exact ⟨hdirectory.1, hlater.isOpen hdirectory.2⟩
  obtain ⟨hhere', hfiles⟩ := fileAt?_of_delete htree' hthere hdelete
  rw [hlater.here_eq, hhere] at hfiles
  have hshrinks :=
    Store.delete_shrinks (job.output.location.child temporaryDirectory) reduced
  rw [show Store.delete _ true reduced = (.ok found, after) from hdelete]
    at hshrinks
  refine ⟨hshrinks.isTree htree', ?_,
    fun place hshuffled => by rw [hfiles, if_pos hshuffled]⟩
  exact hreduced.shuffled hhere' fun place haside => by
    rw [hfiles, if_neg haside]

structure Finishes (registry : Registry) (job : Job) (inputs : List (List Pair))
    (before after : Store) : Prop where
  isTree : Store.IsTree before → Store.IsTree after
  stands : (tableOf registry job inputs).Stands job before after
  shuffle : ∀ place, shufflePlace job before.here <+: place →
    after.fileAt? place = none ∨ after.fileAt? place = before.fileAt? place

private theorem finishes_of_runTasks (hinside : StaysInside job)
    (htree : Store.IsTree store) {inputs : List (List Pair)}
    {counters : Counters}
    (h : Succeeds (runTasks registry job inputs) store counters after) :
    Finishes registry job inputs store after := by
  unfold runTasks at h
  split at h
  · exact absurd h not_succeeds_throw
  rename_i functions hfunctions
  obtain ⟨⟨counters₁, pairs⟩, mapped, hmaps, h⟩ := succeeds_bind_iff.1 h
  have hstart := Table.Stands.start job (rfl : store.here = store.here)
    fun _ => rfl
  obtain ⟨hstands, hspares, hpairs⟩ := stands_of_mapAll hinside hstart hmaps
  have hmapAsked : mapAsked registry job inputs =
      inputs.map (FusedRun.ofFunctions functions job.options).asked := by
    simp only [mapAsked, hfunctions]
  rw [← hmapAsked] at hstands hpairs
  cases hreducer : job.reducer with
  | none =>
      simp only [hreducer] at h
      obtain ⟨-, rfl⟩ := succeeds_pure_iff.1 h
      have hnone : reduceAsked registry job inputs = [] := by
        simp only [reduceAsked, hreducer]
      refine ⟨hspares.isTree, ?_,
        fun place hplace => .inr (hspares.kept place hplace)⟩
      rw [Table.tableOf_eq, hnone]
      exact hstands
  | some reducer =>
      simp only [hreducer, succeeds_bind_iff, succeeds_ofStoreM_iff] at h
      obtain ⟨⟨⟩, made, hmake, paths, written, hwrite, counters₂, reduced,
        hreduce, found, last, hdelete, hanswer⟩ := h
      obtain ⟨-, rfl⟩ := succeeds_pure_iff.1 hanswer
      obtain ⟨htree', hstood, hnone⟩ :=
        stands_of_shuffle hinside htree hstands hspares hmake hwrite
          hreduce hdelete
      have hreduceSide : job.hasReduce = true := by
        rw [Job.hasReduce, hreducer]; rfl
      have hasked : reduceAsked registry job inputs =
          (partitions (max job.reduceTasks 1) pairs).map fun pairs =>
            reduceAskedBy registry job reducer (reread pairs) := by
        simp only [reduceAsked, hreducer, shuffled, hpairs hreduceSide]
      refine ⟨fun _ => htree', ?_,
        fun place hshuffled => .inl (hnone place hshuffled)⟩
      rw [Table.tableOf_eq, hasked]
      exact hstood

/-! ## Whole jobs -/

/-- A job that has read some records, made its directory, run its tasks and left
a mark. -/
structure Completes (registry : Registry) (job : Job)
    (inputs : List (List Pair)) (before made ran after : Store) : Prop where
  reads : ∃ paths, job.input.files before = .ok paths ∧
    List.Forall₂ (before.Reads job.input.format) paths inputs
  grows : Store.Grows before made
  finishes : Finishes registry job inputs made ran
  mark :
      Store.Writes (job.output.location.child successMark) (.text "") ran after

private theorem succeeds_getThe_iff {answer : Store} :
    Succeeds (getThe Store : Effort Store) store answer after ↔ store = answer ∧
    store = after := by
  change ((.ok store, store) : Except Failure Store × Store) = _ ↔ _
  simp

theorem succeeds_tryTasks_iff {inputs : List (List Pair)}
    {result : Except Failure Counters} :
    Succeeds (tryTasks registry job inputs) store result after ↔
      outgrowsMemory job = false ∧
      outcome (runTasks registry job inputs) store = (result, after) := by
  unfold tryTasks
  cases outgrowsMemory job with
  | true => exact iff_of_false not_succeeds_throw (by simp)
  | false => simp [succeeds_attempt_iff]

def runOn (registry : Registry) (id : String) (job : Job)
    (inputs : List (List Pair)) : Effort JobReport := do
  Effort.ofStoreM (Store.makeDirectories job.output.location)
  match ← tryTasks registry job inputs with
  | .ok counters =>
      let mark := job.output.location.child successMark
      Effort.ofStoreM (Store.change fun store => store.write mark (.text ""))
      pure { id, status := .succeeded, counters }
  | .error failure => pure { id, status := .failed, error := some failure.full }

private theorem outcome_of_succeeds {α β : Type} {work : Effort α} {answer : α}
    (next : α → Effort β) (h : Succeeds work store answer after) :
    outcome (work >>= next) store = outcome (next answer) after := by
  rw [outcome_bind, show outcome work store = (.ok answer, after) from h]

/-- Where all functions are known and the input can be read, a job goes on with
what was read. -/
theorem outcome_runJob {paths : List Path} {inputs : List (List Pair)}
    (id : String) (hknown : (missing registry job).isEmpty = true)
    (hpaths : job.input.files store = .ok paths)
    (hreads : List.Forall₂ (store.Reads job.input.format) paths inputs) :
    outcome (runJob registry id job) store =
      outcome (runOn registry id job inputs) store := by
  have hlisted :
      Succeeds ((Effort.ofExcept IoError.failure (job.input.files store)).within
        ("listando entrada " ++ job.input.location.text)) store paths store :=
    succeeds_within_iff.2 (succeeds_ofExcept_iff.2 ⟨hpaths, rfl⟩)
  have hread : Succeeds (readAll job.input.format paths) store inputs store :=
    succeeds_readAll_iff.2 ⟨rfl, hreads⟩
  unfold runJob
  rw [hknown, if_neg (by simp),
    outcome_of_succeeds _ (succeeds_getThe_iff.2 ⟨rfl, rfl⟩),
    outcome_of_succeeds _ hlisted, outcome_of_succeeds _ hread]
  rfl

/-- A job that is reported on has read its input and made its directory. It has
left its mark if its tasks have all run well, and else it has stopped where one
has failed. -/
theorem of_runJob {id : String} {report : JobReport}
    (hrun : Succeeds (runJob registry id job) store report after) :
    ∃ paths inputs made, job.input.files store = .ok paths ∧
      List.Forall₂ (store.Reads job.input.format) paths inputs ∧
      Store.Grows store made ∧
      ((∃ counters ran,
        Succeeds (runTasks registry job inputs) made counters ran ∧
          Store.Writes (job.output.location.child successMark)
            (.text "") ran after ∧
          report = { id, status := .succeeded, counters }) ∨
        ∃ failure, outcome (runTasks registry job inputs) made =
          (.error failure, after) ∧
          report = { id, status := .failed, error := some failure.full }) := by
  unfold runJob at hrun
  split at hrun
  · exact absurd hrun not_succeeds_throw
  simp only [succeeds_bind_iff, succeeds_getThe_iff, succeeds_within_iff,
    succeeds_ofExcept_iff, succeeds_readAll_iff, succeeds_ofStoreM_iff,
    succeeds_tryTasks_iff] at hrun
  obtain ⟨_, _, ⟨rfl, rfl⟩, paths, _, ⟨hfiles, rfl⟩, inputs, _, ⟨rfl, hreads⟩,
    ⟨⟩, made, hmake, result,
    ran, ⟨-, htasks⟩, hrun⟩ := hrun
  have hgrows := (Store.makeDirectories_spec job.output.location store).1
  rw [show Store.makeDirectories job.output.location store =
    (.ok (), made) from hmake] at hgrows
  refine ⟨paths, inputs, made, hfiles, hreads, hgrows, ?_⟩
  cases result with
  | error failure =>
      obtain ⟨rfl, rfl⟩ := succeeds_pure_iff.1 hrun
      exact .inr ⟨failure, htasks, rfl⟩
  | ok counters =>
      simp only [succeeds_bind_iff, succeeds_ofStoreM_iff] at hrun
      obtain ⟨⟨⟩, marked, hmark, hanswer⟩ := hrun
      obtain ⟨rfl, rfl⟩ := succeeds_pure_iff.1 hanswer
      exact .inl ⟨counters, ran, htasks,
        Store.writes_of_write (Store.succeeds_change_iff.1 hmark), rfl⟩

theorem completes_of_runJob {id : String} {report : JobReport}
    (hinside : StaysInside job) (htree : Store.IsTree store)
    (hrun : Succeeds (runJob registry id job) store report after)
    (hstatus : report.status = .succeeded) :
    ∃ inputs made ran, Completes registry job inputs store made ran after := by
  obtain ⟨paths, inputs, made, hfiles, hreads, hgrows,
    ⟨counters, ran, htasks, hmark, -⟩ |
    ⟨failure, -, rfl⟩⟩ := of_runJob hrun
  · exact ⟨inputs, made, ran, ⟨paths, hfiles, hreads⟩, hgrows,
      finishes_of_runTasks hinside (hgrows.isTree htree) htasks, hmark⟩
  · cases hstatus

namespace Completes

variable {inputs : List (List Pair)} {before made ran : Store}

theorem here_eq (h : Completes registry job inputs before made ran after) :
    after.here = before.here := by
  rw [h.mark.here_eq, h.finishes.stands.here_eq, h.grows.here_eq]

theorem isTree (h : Completes registry job inputs before made ran after)
    (htree : Store.IsTree before) : Store.IsTree after :=
  h.mark.isTree (h.finishes.isTree (h.grows.isTree htree))

theorem fileAt?_eq (h : Completes registry job inputs before made ran after)
    (place : Place) : after.fileAt? place =
      if place = homeOf job before.here ++ [successMark] then some (.text "")
      else ran.fileAt? place := by
  have hmark : Store.placeOf ran.here (job.output.location.child successMark) =
      homeOf job before.here ++ [successMark] := by
    rw [h.finishes.stands.here_eq, h.grows.here_eq]
    exact Store.placeOf_child _ (by decide) (by decide) (by decide) before.here
  rw [h.mark.fileAt?_eq, hmark]

theorem file (h : Completes registry job inputs before made ran after)
    {place : Place} {content : Content}
    (hholds : (tableOf registry job inputs).Holds job before.here place
      content) :
    after.fileAt? place = some content := by
  rw [h.fileAt?_eq, if_neg]
  · exact h.finishes.stands.file place content (h.grows.here_eq ▸ hholds)
  · rintro rfl
    generalize hplace : homeOf job before.here ++ [successMark] = place
      at hholds
    obtain ⟨side, task, output, format, -, -⟩ := hholds
    exact outputName_ne (by decide) output side task format
      (List.singleton_inj.1 (List.append_cancel_left hplace)).symm

theorem of_fileAt? (h : Completes registry job inputs before made ran after)
    {place : Place} {content : Content}
    (hfile : after.fileAt? place = some content) :
    (tableOf registry job inputs).Holds job before.here place content ∨
      (place = homeOf job before.here ++ [successMark] ∧ content = .text "") ∨
        before.fileAt? place = some content := by
  rw [h.fileAt?_eq] at hfile
  split_ifs at hfile with hmark
  · exact .inr (.inl ⟨hmark, (Option.some.inj hfile).symm⟩)
  by_cases hbelow : shufflePlace job made.here <+: place
  · refine .inr (.inr ?_)
    rcases h.finishes.shuffle place hbelow with hnone | hkept
    · simp [hnone] at hfile
    · rw [← hfile, hkept, h.grows.fileAt?_eq]
  by_cases hholds : ∃ content,
      (tableOf registry job inputs).Holds job made.here place content
  · obtain ⟨content', hholds⟩ := hholds
    obtain rfl :=
      Option.some.inj
        (hfile.symm.trans (h.finishes.stands.file place content' hholds))
    exact .inl (h.grows.here_eq ▸ hholds)
  · rw [h.finishes.stands.others place
      (fun content hone => hholds ⟨content, hone⟩) hbelow, h.grows.fileAt?_eq]
      at hfile
    exact .inr (.inr hfile)

end Completes

/-- A job that succeeds where no file has been leaves one file for each output
of each task with some records, which holds all of them in the order in which
they were written, the mark, and no other file. All files that it did not write
stay. An output with records whose name is not registered does not succeed. -/
theorem runJob_keeps_records {id : String} {report : JobReport}
    (htree : Store.IsTree store)
    (hslash : ∀ entry ∈ job.output.named, '/' ∉ entry.name.toList)
    (hfresh : ∀ place, homeOf job store.here <+: place →
      store.fileAt? place = none)
    (hrun : Succeeds (runJob registry id job) store report after)
    (hstatus : report.status = .succeeded) :
    ∃ paths inputs, job.input.files store = .ok paths ∧
      List.Forall₂ (store.Reads job.input.format) paths inputs ∧
      (∀ side task output, tableOf registry job inputs side task output ≠ [] →
        ∃ format, formatFor? job output = some format ∧
          after.fileAt? (outputPlace job store.here side task output format) =
            some
              (.text
                (format.write
                  (tableOf registry job inputs side task output)))) ∧
      (∀ side task output format side' task' output' format',
        outputPlace job store.here side task output format =
          outputPlace job store.here side' task' output' format' →
        side = side' ∧ task = task' ∧ output = output') ∧
      (∀ place content, homeOf job store.here <+: place →
        after.fileAt? place = some content →
        (tableOf registry job inputs).Holds job store.here place content ∨
          place = homeOf job store.here ++ [successMark] ∧ content = .text "") ∧
      ∀ place, ¬homeOf job store.here <+: place →
        after.fileAt? place = store.fileAt? place := by
  obtain ⟨inputs, made, ran, hcompletes⟩ :=
    completes_of_runJob (staysInside_of_named hslash) htree hrun hstatus
  obtain ⟨paths, hfiles, hreads⟩ := hcompletes.reads
  refine ⟨paths, inputs, hfiles, hreads, fun side task output hleft => ?_,
    fun side task output format side' task' output' format' hplace => ?_,
    fun place content hbelow hfile => ?_, fun place hbeside => ?_⟩
  · obtain ⟨format, hknown, -, -⟩ :=
      hcompletes.finishes.stands.known side task output hleft
    exact ⟨format, hknown,
      hcompletes.file (.file side task output format hleft hknown)⟩
  · obtain ⟨houtput, hside, htask⟩ :=
      outputName_inj (List.singleton_inj.1 (List.append_cancel_left hplace))
    exact ⟨hside, htask, houtput⟩
  · rcases hcompletes.of_fileAt? hfile with hholds | hmark | hbefore
    · exact .inl hholds
    · exact .inr hmark
    · simp [hfresh place hbelow] at hbefore
  · have hmark : place ≠ homeOf job store.here ++ [successMark] := by
      rintro rfl
      exact hbeside (List.prefix_append ..)
    rw [hcompletes.fileAt?_eq, if_neg hmark, hcompletes.finishes.stands.others,
      hcompletes.grows.fileAt?_eq]
    · rintro content ⟨side, task, output, format, -, -⟩
      exact hbeside (hcompletes.grows.here_eq ▸ List.prefix_append ..)
    · rw [hcompletes.grows.here_eq]
      exact fun hbelow => hbeside ((List.prefix_append ..).trans hbelow)

end

/-! ## A job that counts -/

def countingJob : Job where
  ordinal := 0
  name := "c"
  stages := [{ name := "g", kind := .mapReduce, map := "group-count" }]
  input := { location := ⟨"in"⟩, format := .jsonLines }
  output := { location := ⟨"out"⟩, format := .keyValue, named := [⟨graphOutput, .jsonLines⟩] }
  options := .ofList [(Builtin.groupOption, "n")]
  reducer := some "sum"
  reduceTasks := 1
  package := ⟨"p"⟩

def countedText : String := "\x7b\"n\":\"a\",\"paths\":2\x7d\n"

def countedRecord : Pair :=
  ⟨.null, .ofFields [("n", .string "a"), ("paths", .ofNat 2)]⟩

def countedStore : Store := ({} : Store).put ["in"] (.file (.text countedText))

theorem isTree_countedStore : Store.IsTree countedStore :=
  @Store.isTree_put _ [] "in" _ Store.isTree_empty rfl (by decide) (by decide)

theorem fileAt?_countedStore {name : String} (hname : name ≠ "in")
    {place : Place} (hbelow : [name] <+: place) :
    countedStore.fileAt? place = none := by
  obtain ⟨rest, rfl⟩ := hbelow
  change Store.fileAt? _ (name :: rest) = none
  rw [Store.fileAt?, countedStore, Store.node?_put _ _ _ _ (by simp),
    if_neg (by simp [hname])]
  simp [Store.node?]

private theorem eq_of_files_countingJob {paths : List Path}
    {inputs : List (List Pair)}
    (hpaths : countingJob.input.files countedStore = .ok paths)
    (hinputs : List.Forall₂ (countedStore.Reads .jsonLines) paths inputs) :
    inputs = [[countedRecord]] := by
  have hlisted : (countingJob.input.files countedStore).toOption =
      some [⟨"in"⟩] := by
    decide +kernel
  obtain rfl : paths = [⟨"in"⟩] := by
    simpa [hpaths, Except.toOption] using hlisted
  have hrecords : [⟨"in"⟩].map (countedStore.recordsAt .jsonLines) =
      [[countedRecord]] := by
    decide +kernel
  rw [← Store.map_recordsAt hinputs, hrecords]

theorem runJob_keeps_records_counted :
    ∃ report after,
      Succeeds (runJob .builtin "" countingJob) countedStore report after ∧
      after.fileAt? ["out", "graph-m-00000.jsonl"] = some (.text countedText) ∧
      after.fileAt? ["out", "part-r-00000.kv"] =
        some (.text "\x7b\"k\":\"a\",\"v\":2\x7d\n") := by
  have hfresh : ∀ place, homeOf countingJob countedStore.here <+: place →
      countedStore.fileAt? place = none := fun place hbelow =>
    fileAt?_countedStore
        (by decide) (List.IsPrefix.trans (by decide : ["out"] <+: _) hbelow)
  obtain ⟨report, after, hrun, hstatus⟩ := @exists_succeeds _ _ _ _ countedStore
    (runJob .builtin "" countingJob) JobReport.status .succeeded
    (by decide +kernel)
  obtain ⟨paths, inputs, hpaths, hinputs, hfiles, -⟩ :=
    runJob_keeps_records isTree_countedStore (by decide) hfresh hrun hstatus
  obtain rfl := eq_of_files_countingJob hpaths hinputs
  have hleft : ∀ {side output format pairs}, formatFor? countingJob output =
      some format →
      tableOf .builtin countingJob [[countedRecord]] side 0 output = pairs →
      pairs ≠ [] →
      after.fileAt? (outputPlace countingJob [] side 0 output format) =
        some (.text (format.write pairs)) := by
    rintro side output format _ hknown rfl hne
    obtain ⟨format', hknown', hfile⟩ := hfiles side 0 output hne
    obtain rfl := Option.some.inj (hknown.symm.trans hknown')
    exact hfile
  have hgraph :
      tableOf .builtin countingJob [[countedRecord]] .map 0 graphOutput =
      [countedRecord] := by decide +kernel
  have hsum :
      tableOf .builtin countingJob [[countedRecord]] .reduce 0 mainOutput =
      [⟨.string "a", .ofNat 2⟩] := by decide +kernel
  have hgraphText : RecordFormat.jsonLines.write [countedRecord] =
      countedText := by decide +kernel
  have hsumText : RecordFormat.keyValue.write [⟨.string "a", .ofNat 2⟩] =
      "\x7b\"k\":\"a\",\"v\":2\x7d\n" := by decide +kernel
  have hgraphFile := @hleft _ _ .jsonLines _ (by decide) hgraph (by simp)
  have hsumFile := @hleft _ _ .keyValue _ (by decide) hsum (by simp)
  rw [hgraphText] at hgraphFile
  rw [hsumText] at hsumFile
  exact ⟨report, after, hrun, hgraphFile, hsumFile⟩

end JobChain.Engine
