import JobChain.Proofs.Counts
import JobChain.Proofs.Engine.Combining
import JobChain.Proofs.Engine.Rehearsal
import JobChain.Proofs.Options.Views

/-!
# A job that counts

A job of the one stage that counts by group, with its combiner, its shuffle and
its reduce tasks, comes to the same as one sum for each group, however the
elements are divided into files and the groups into partitions.
-/

namespace JobChain

/-! ## Tasks that count -/

private theorem Builtin.named_countAll (field : String) (records : List Pair) :
    (({} : Task).performAll (countAll field records)).named =
      Task.oneNamed graphOutput records := by
  rw [Task.named_of_single
    fun name
    hname => by
    rw [namedPairs_countAll, if_neg (Ne.symm hname)], namedPairs_countAll,
      if_pos rfl]

private theorem Builtin.named_sumActions (output : String) (sums : List Pair) :
    (({} : Task).performAll (sumActions (.writeNamed output) sums)).named =
      Task.oneNamed output sums := by
  rw [Task.named_of_single fun name hname => by
      rw [namedPairs_sumActions_writeNamed, if_neg (Ne.symm hname)],
    namedPairs_sumActions_writeNamed, if_pos rfl]

namespace Engine

open Store (SameShape Step performAll)

/-! ## Jobs that count -/

/-- A job of one stage that counts by a field, adds up and learns the sums on
the way. -/
structure CountsGroups (registry : Registry) (job : Job)
    (field : String) : Prop where
  maps : registry.findMaps job.maps = .ok [Builtin.groupCount]
  view : (job.options.view 0).get? Builtin.groupOption = some field
  sumsTwice : SumsTwice registry job
  reducer : ∃ name, job.reducer = some name ∧
      registry.findReduce name = .ok Builtin.sideSums
  graph : (formatFor? job graphOutput).isSome = true
  side : (formatFor? job sideOutput).isSome = true
  inside : StaysInside job
  known : (missing registry job).isEmpty = true

section

open Builtin (counted)
open Pair (AreCounts)

variable {registry : Registry} {job : Job} {field : String} {here : Place}
  {store other after : Store}

private theorem exists_mapAll (hjob : CountsGroups registry job field)
    {index : Nat} {inputs : List (List Pair)} (counters : Counters)
    (h : SameShape here store other)
    (hsteps : Succeeds
      (performAll ((filesOf job .map graphOutput index inputs).map .save))
      other () after) :
    ∃ counters' left,
      Succeeds
        (mapAll registry job [Builtin.groupCount] index counters inputs) store
      (counters', inputs.flatMap fun records =>
        combined registry job (counted field records)) left ∧
      SameShape here left after := by
  induction inputs generalizing index counters store other with
  | nil =>
      obtain ⟨-, rfl⟩ := succeeds_pure_iff.1 hsteps
      exact ⟨counters, store, succeeds_pure_iff.2 ⟨rfl, rfl⟩, h⟩
  | cons records rest ih =>
      let actions := Builtin.countAll field records
      obtain ⟨written, between, hwrite, hshape, hrest⟩ :=
        exists_writeOutput h hjob.graph hsteps
      obtain ⟨counters', left, hlater, hlast⟩ :=
        ih
          ((counters.merge (({} : Task).performAll actions).counters).merge
            .empty) hshape hrest
      have hemitted := Task.emitted_performAll {} actions
      rw [Builtin.written_countAll] at hemitted
      refine ⟨counters', left, ?_, hlast⟩
      simp only [mapAll, Builtin.runAll_groupCount hjob.view, succeeds_bind_iff,
        succeeds_ofExcept_iff, if_pos hjob.sumsTwice.hasReduce,
        combine_of_sums hjob.sumsTwice, succeeds_pure_iff]
      refine ⟨_, _, ⟨rfl, rfl⟩, (), written, ?_, _, _, ⟨rfl, rfl⟩, _, _, hlater,
        ?_, rfl⟩
      · rw [Builtin.named_countAll, writeAll_oneNamed]
        exact hwrite
      · rw [hemitted]
        rfl

private theorem exists_reduceAll (hjob : CountsGroups registry job field)
    {name : String} (hname : registry.findReduce name = .ok Builtin.sideSums)
    {index : Nat} {paths : List Path} {parts : List (List Pair)}
    (counters : Counters)
    (hreads : List.Forall₂ (fun path pairs => store.read path =
      .ok (.text (RecordFormat.intermediate.write pairs))) paths parts)
    (hbelow : ∀ path ∈ paths, shufflePlace job store.here <+:
      Store.placeOf store.here path)
    (hreturns : ∀ part ∈ parts, ∀ pair ∈ part, pair.Returns)
    (h : SameShape here store other)
    (hsteps : Succeeds
      (performAll
        ((filesOf job .reduce sideOutput index
          (parts.map (Group.sums (orderOf job)))).map .save)) other () after) :
    ∃ counters' left,
      Succeeds (reduceAll registry job name index counters paths) store
        counters' left ∧
      SameShape here left after := by
  induction paths generalizing index parts counters store other with
  | nil =>
      cases hreads
      obtain ⟨-, rfl⟩ := succeeds_pure_iff.1 hsteps
      exact ⟨counters, store, succeeds_pure_iff.2 ⟨rfl, rfl⟩, h⟩
  | cons path paths ih =>
      obtain ⟨pairs, rest, hread, hothers, rfl⟩ :=
        List.forall₂_cons_left_iff.1 hreads
      obtain ⟨hfirst, hbelow⟩ := List.forall_mem_cons.1 hbelow
      obtain ⟨hpairs, hreturns⟩ := List.forall_mem_cons.1 hreturns
      let sums := Group.sums (orderOf job) pairs
      let actions := Builtin.sumActions (.writeNamed sideOutput) sums
      rw [List.map_cons] at hsteps
      obtain ⟨written, between, hwrite, hshape, hrest⟩ :=
        exists_writeOutput h hjob.side hsteps
      have hspares := sparesShuffle_of_writeOutput hjob.inside hwrite
      have hreads' : List.Forall₂ (fun path pairs => written.read path =
          .ok (.text (RecordFormat.intermediate.write pairs))) paths rest :=
        ((List.forall₂_and_left _ _).2 ⟨hbelow, hothers⟩).imp fun _ _ h =>
          hspares.read_eq_ok h.1 h.2
      obtain ⟨counters', left, hlater, hlast⟩ :=
        ih (counters.merge (({} : Task).performAll actions).counters) hreads'
          (hspares.here_eq ▸ hbelow) hreturns hshape hrest
      have hemitted := Task.emitted_performAll {} actions
      rw [Builtin.written_sumActions_writeNamed] at hemitted
      have hload :
          Succeeds (RecordFormat.intermediate.load path) store pairs store :=
        Store.succeeds_load_iff.2 ⟨rfl, _, hread,
          RecordFormat.read_write_intermediate hpairs path⟩
      refine ⟨counters', left, ?_, hlast⟩
      simp only [reduceAll, hname, Builtin.sideSums, Builtin.run_sumTo,
        succeeds_bind_iff, succeeds_within_iff, succeeds_ofStoreM_iff,
        succeeds_ofExcept_iff]
      refine ⟨pairs, store, hload, _, _, ⟨rfl, rfl⟩, (), written, ?_, (),
        written, ?_, hlater⟩
      · rw [Builtin.named_sumActions, writeAll_oneNamed]
        exact hwrite
      · rw [hemitted]
        exact succeeds_pure_iff.2 ⟨rfl, rfl⟩

/-! ## What a job that counts asks for -/

variable {inputs : List (List Pair)}

private theorem mapAsked_of_counts (hjob : CountsGroups registry job field)
    (inputs : List (List Pair)) :
    mapAsked registry job inputs = inputs.map (Builtin.countAll field) := by
  simp only [mapAsked, hjob.maps, Builtin.asked_groupCount hjob.view]

private theorem written_of_counts (hjob : CountsGroups registry job field)
    (inputs : List (List Pair)) :
    (mapAsked registry job inputs).flatMap written =
      counted field inputs.flatten := by
  rw [mapAsked_of_counts hjob, List.flatMap_map]
  simp only [Builtin.written_countAll]
  rw [List.flatMap_def, counted, List.filter_flatten, List.map_flatten,
    List.map_map]
  rfl

private theorem shuffled_of_counts (hjob : CountsGroups registry job field)
    (inputs : List (List Pair)) : shuffled registry job inputs =
      inputs.flatMap fun records =>
        combined registry job (counted field records) := by
  rw [shuffled, mapAsked_of_counts hjob, List.flatMap_map]
  simp only [Builtin.written_countAll]

private theorem sums_shuffled (hjob : CountsGroups registry job field)
    (hcounts : AreCounts (counted field inputs.flatten)) (count index : Nat) :
    Group.sums (orderOf job)
      (partition count index (shuffled registry job inputs)) =
      partition count index
        (Group.sums (orderOf job) (counted field inputs.flatten)) := by
  rw [← written_of_counts hjob] at hcounts
  rw [← sums_partition hjob.sumsTwice hcounts, shuffled_plain,
    written_of_counts hjob]
  rw [written_of_counts hjob] at hcounts
  exact Group.sums_filter hjob.sumsTwice.order hcounts fun key =>
    partitionOf count key = index

private theorem returns_of_counts (hjob : CountsGroups registry job field)
    (hcounts : AreCounts (counted field inputs.flatten)) (count : Nat) :
    ∀ part ∈ partitions count (shuffled registry job inputs), ∀ pair ∈ part,
      pair.Returns := by
  rw [partitions_eq]
  intro part hpart
  obtain ⟨index, -, rfl⟩ := List.mem_map.1 hpart
  rw [← written_of_counts hjob] at hcounts
  exact returns_partition (areCounts_shuffled hjob.sumsTwice hcounts) _ index

private theorem filesOf_sums (hjob : CountsGroups registry job field)
    (hcounts : AreCounts (counted field inputs.flatten)) {learned : List Pair}
    (hlearned : (Group.sums (orderOf job) (counted field inputs.flatten)).Perm
      learned)
    (count first : Nat) :
    filesOf job .reduce sideOutput first
        ((partitions count (shuffled registry job inputs)).map
          (Group.sums (orderOf job))) =
      filesOf job .reduce sideOutput first (partitions count learned) := by
  apply filesOf_congr
  rw [partitions_eq, partitions_eq, List.map_map, List.forall₂_map_left_iff,
    List.forall₂_map_right_iff, List.forall₂_same]
  intro index _
  rw [Function.comp_apply, sums_shuffled hjob hcounts]
  exact (hlearned.filter _).isEmpty_eq

private theorem exists_runTasks (hjob : CountsGroups registry job field)
    (hcounts : AreCounts (counted field inputs.flatten)) {learned : List Pair}
    (hlearned : (Group.sums (orderOf job) (counted field inputs.flatten)).Perm
      learned)
    (h : SameShape here store other)
    (hsteps : Succeeds (performAll (taskChangesOf job inputs learned)) other
      () after) :
    ∃ counters left,
      Succeeds (runTasks registry job inputs) store counters left ∧
      SameShape here left after := by
  obtain ⟨reducer, hreducer, hfind⟩ := hjob.reducer
  simp only [taskChangesOf, Store.succeeds_performAll_append,
    Store.succeeds_performAll_cons] at hsteps
  obtain ⟨mapped', hmaps, made', hshuffle, shuffled', hshuffled, reduced',
    hreduced, deleted', hdelete,
    hnil⟩ := hsteps
  obtain ⟨-, rfl⟩ := succeeds_pure_iff.1 hnil
  obtain ⟨counters, mapped, hmapAll, h⟩ := exists_mapAll hjob .empty h hmaps
  rw [← shuffled_of_counts hjob] at hmapAll
  obtain ⟨⟨⟩, folder, hfolder, -, h⟩ :=
    (h.makeDirectories _).exists_succeeds hshuffle
  rw [List.range_eq_range'] at hshuffled
  obtain ⟨paths, written, hwrite, h⟩ := exists_writeShuffle
    (fun index =>
      partition (max job.reduceTasks 1) index (shuffled registry job inputs)) h
        hshuffled
  rw [← List.range_eq_range', ← partitions_eq] at hwrite
  have hshuffles := shuffles_of_writeShuffle hwrite
  rw [← filesOf_sums hjob hcounts hlearned] at hreduced
  obtain ⟨spent, reduced, hreduce, h⟩ :=
    exists_reduceAll hjob hfind counters hshuffles.reads hshuffles.below
      (returns_of_counts hjob hcounts _) h hreduced
  obtain ⟨found', _, hclear, hdone⟩ := succeeds_bind_iff.1 hdelete
  obtain ⟨-, rfl⟩ := succeeds_pure_iff.1 hdone
  obtain ⟨found, ran, hdeleted, -, h⟩ :=
    (h.delete _ true).exists_succeeds hclear
  refine ⟨spent, ran, ?_, h⟩
  unfold runTasks
  simp only [hjob.maps, hreducer, succeeds_bind_iff, succeeds_ofStoreM_iff,
    succeeds_pure_iff]
  exact ⟨_, mapped, hmapAll, (), folder, hfolder, paths, written, hwrite, spent,
    reduced, hreduce, found, ran, hdeleted, rfl, rfl⟩

private theorem exists_runOn (hjob : CountsGroups registry job field)
    (hcounts : AreCounts (counted field inputs.flatten)) {learned : List Pair}
    (hlearned : (Group.sums (orderOf job) (counted field inputs.flatten)).Perm
      learned)
    (hsteps : Succeeds (performAll (changesOf job inputs learned)) store
      () after)
    (hfits : outgrowsMemory job = false) (id : String) :
    ∃ report left, Succeeds (runOn registry id job inputs) store report left ∧
      report.status = .succeeded := by
  rw [changesOf_eq, Store.succeeds_performAll_cons] at hsteps
  obtain ⟨made, hmake, hsteps⟩ := hsteps
  obtain ⟨ran', hran, hsteps⟩ := Store.succeeds_performAll_append.1 hsteps
  obtain ⟨marked', hmark, -⟩ := Store.succeeds_performAll_cons.1 hsteps
  obtain ⟨counters, ran, htasks, h⟩ :=
    exists_runTasks hjob hcounts hlearned (.refl made) hran
  let mark := fun store : Store =>
    store.write (job.output.location.child successMark) (.text "")
  have hmarks :=
    @Store.Resembles.change _ _ _ _ h mark mark (h.write _ (.inl rfl))
  obtain ⟨⟨⟩, left, hmarked, -, -⟩ := hmarks.exists_succeeds hmark
  refine ⟨{ id, status := .succeeded, counters }, left, ?_, rfl⟩
  unfold runOn
  simp only [succeeds_bind_iff, succeeds_ofStoreM_iff, succeeds_tryTasks_iff]
  refine ⟨(), made, hmake, .ok counters, ran, ⟨hfits, htasks⟩, ?_⟩
  simp only [succeeds_bind_iff, succeeds_ofStoreM_iff]
  exact ⟨(), left, hmarked, succeeds_pure_iff.2 ⟨rfl, rfl⟩⟩

/-! ## What a job that counts leaves -/

private theorem tableOf_map (hjob : CountsGroups registry job field)
    (task : Nat) (output : String) :
    tableOf registry job inputs .map task output =
      if graphOutput = output then inputs[task]?.getD [] else [] := by
  simp only [tableOf, mapAsked_of_counts hjob, List.getElem?_map,
    hjob.sumsTwice.hasReduce]
  cases inputs[task]? with
  | none => simp
  | some records => simp [kept, Builtin.namedPairs_countAll]

private theorem tableOf_reduce (hjob : CountsGroups registry job field)
    (hcounts : AreCounts (counted field inputs.flatten)) (task : Nat)
    (output : String) : tableOf registry job inputs .reduce task output =
      if sideOutput = output ∧ task < max job.reduceTasks 1 then
        partition (max job.reduceTasks 1) task
          (Group.sums (orderOf job) (counted field inputs.flatten))
      else [] := by
  obtain ⟨reducer, hreducer, hfind⟩ := hjob.reducer
  have hreturns := hcounts
  rw [← written_of_counts hjob] at hreturns
  have hreread :=
    reread_eq (returns_partition (areCounts_shuffled hjob.sumsTwice hreturns)
      (max job.reduceTasks 1) task)
  simp only [tableOf, reduceAsked, hreducer, partitions_eq, List.getElem?_map]
  by_cases htask : task < max job.reduceTasks 1
  · simp only [List.getElem?_range htask, Option.map_some, Option.elim_some,
      hreread, reduceAskedBy, hfind, Builtin.sideSums, Builtin.asked_sumTo,
      sums_shuffled hjob hcounts, kept,
      Builtin.written_sumActions_writeNamed,
      Builtin.namedPairs_sumActions_writeNamed]
    simp [htask]
  · have hnone : (List.range (max job.reduceTasks 1))[task]? = none := by
      apply List.getElem?_eq_none
      rw [List.length_range]
      exact Nat.not_lt.1 htask
    rw [hnone, if_neg fun h => htask h.2]
    rfl

end

/-- What a job that counts leaves. The elements of each file go to the graph as
they are, the number of paths of each group is learned by one of the reduce
tasks, and there is nothing else. -/
structure LeavesCounts (registry : Registry) (job : Job) (field : String)
    (inputs : List (List Pair)) (before after : Store) : Prop where
  graph : ∀ task, tableOf registry job inputs .map task graphOutput =
      inputs[task]?.getD []
  counts : ((List.range (max job.reduceTasks 1)).flatMap fun task =>
    tableOf registry job inputs .reduce task sideOutput).Perm
      (Builtin.groupCounts field (inputs.flatten.map Pair.value))
  main : ∀ side task, tableOf registry job inputs side task mainOutput = []
  nothing : ∀ side task output,
    tableOf registry job inputs side task output ≠ [] →
    side = .map ∧ output = graphOutput ∨
      side = .reduce ∧ output = sideOutput ∧ task < max job.reduceTasks 1
  file : ∀ side task output format,
    tableOf registry job inputs side task output ≠ [] →
    formatFor? job output = some format →
      after.fileAt? (outputPlace job before.here side task output format) =
        some
          (.text (format.write (tableOf registry job inputs side task output)))
  others : ∀ place content, after.fileAt? place = some content →
    (tableOf registry job inputs).Holds job before.here place content ∨
      place = homeOf job before.here ++ [successMark] ∧ content = .text "" ∨
        before.fileAt? place = some content

private theorem partitions_perm {pairs : List Pair} (h : pairs.Nodup)
    {count : Nat} (hcount : 0 < count) :
    ((List.range count).flatMap fun index => partition count index pairs).Perm
      pairs := by
  refine (List.perm_ext_iff_of_nodup ?_ h).2 fun pair => ?_
  · refine List.nodup_flatMap.2 ⟨fun index _ => h.filter _, ?_⟩
    refine List.nodup_range.imp fun hne pair hpair hpair' => hne ?_
    rw [← (mem_partition.1 hpair).2, (mem_partition.1 hpair').2]
  · simp only [List.mem_flatMap, mem_partition, List.mem_range]
    constructor
    · rintro ⟨index, -, hpair, -⟩
      exact hpair
    · exact fun hpair => ⟨_, partitionOf_lt hcount _, hpair, rfl⟩

section

open Builtin (counted groupCounts AreCountable)
open Pair (AreCounts)

variable {registry : Registry} {job : Job} {field : String}
  {inputs : List (List Pair)} {before made ran after : Store}

private theorem tableOf_ne_nil (hjob : CountsGroups registry job field)
    (hcounts : AreCounts (counted field inputs.flatten)) {side : Side}
    {task : Nat} {output : String}
    (h : tableOf registry job inputs side task output ≠ []) : side = .map ∧
    output = graphOutput ∨
      side = .reduce ∧ output = sideOutput ∧ task < max job.reduceTasks 1 := by
  cases side with
  | map =>
      rw [tableOf_map hjob] at h
      split_ifs at h with houtput
      · exact .inl ⟨rfl, houtput.symm⟩
      · exact absurd rfl h
  | reduce =>
      rw [tableOf_reduce hjob hcounts] at h
      split_ifs at h with houtput
      · exact .inr ⟨rfl, houtput.1.symm, houtput.2⟩
      · exact absurd rfl h

private theorem learned_perm (hjob : CountsGroups registry job field)
    (hcanonical : ∀ pair ∈ inputs.flatten, pair.value.Canonical)
    (hcountable : AreCountable field (inputs.flatten.map Pair.value)) :
    ((List.range (max job.reduceTasks 1)).flatMap fun task =>
      tableOf registry job inputs .reduce task sideOutput).Perm
        (groupCounts field (inputs.flatten.map Pair.value)) := by
  have hcounts := Builtin.areCounts_counted hcanonical hcountable
  have hcut : (List.range (max job.reduceTasks 1)).flatMap (fun task =>
      tableOf registry job inputs .reduce task sideOutput) =
      (List.range (max job.reduceTasks 1)).flatMap fun task =>
        partition (max job.reduceTasks 1) task
          (Group.sums (orderOf job) (counted field inputs.flatten)) :=
    List.flatMap_congr fun task htask => by
      rw [tableOf_reduce hjob hcounts, if_pos ⟨rfl, List.mem_range.1 htask⟩]
  rw [hcut]
  have hnodup := Group.nodup_sums hjob.sumsTwice.order hcounts
  exact (partitions_perm hnodup (Nat.le_max_right ..)).trans
    (Builtin.sums_counted_perm hjob.sumsTwice.order hcanonical hcountable)

private theorem leavesCounts_of_completes
    (hjob : CountsGroups registry job field)
    (hcanonical : ∀ pair ∈ inputs.flatten, pair.value.Canonical)
    (hcountable : AreCountable field (inputs.flatten.map Pair.value))
    (h : Completes registry job inputs before made ran after) :
    LeavesCounts registry job field inputs before after where
  graph task := by rw [tableOf_map hjob, if_pos rfl]
  counts := learned_perm hjob hcanonical hcountable
  main side task := by
    by_contra hleft
    rcases tableOf_ne_nil hjob (Builtin.areCounts_counted hcanonical hcountable)
      hleft with ⟨-, houtput⟩ | ⟨-, houtput, -⟩ <;>
      exact absurd houtput (by decide)
  nothing _ _ _ :=
    tableOf_ne_nil hjob (Builtin.areCounts_counted hcanonical hcountable)
  file side task output format hleft hknown :=
    h.file (.file side task output format hleft hknown)
  others _ _ hfile := h.of_fileAt? hfile

end

end Engine

/-! ## Counting as a stage -/

/-- A registry that knows the functions of a stage that counts. -/
structure Registry.KnowsCounts (registry : Registry) : Prop where
  map : registry.findMap "group-count" = .ok Builtin.groupCount
  combine : registry.findReduce "sum" = .ok Builtin.sums
  reduce : registry.findReduce "sum-side-effect" = .ok Builtin.sideSums

private theorem Registry.hasMap_of_findMap {registry : Registry} {name : String}
    {function : MapFunction} (h : registry.findMap name = .ok function) :
    registry.hasMap name = true := by
  unfold findMap at h
  unfold hasMap SortedMap.contains
  cases hget : registry.maps.get? name <;> simp_all

namespace Assembly

open Engine

variable {assembly : Assembly} {ordinal : Nat} {name field : String}
  {order : Option KeyOrder} {job : Job} {registry : Registry}

def countingBlock (ordinal : Nat) (name field : String)
    (order : Option KeyOrder) : Block where
  ordinal
  stages := [{ Builtin.groupCountStage name field with keyOrder := order }]

private theorem countsGroups_of_assemble (hregistry : registry.KnowsCounts)
    (horder : order ≠ some .numeric)
    (hjob : assembly.assemble (countingBlock ordinal name field order) =
      .ok job)
    (hrival : ∀ zeros > 0,
      assembly.options.get? (Options.paddedName Builtin.groupOption zeros 0) =
        none) :
    CountsGroups registry job field := by
  obtain ⟨rfl, -⟩ := assemble_eq_ok hjob
  have hmaps : registry.findMaps ["group-count"] =
      .ok [Builtin.groupCount] := by
    simp only [Registry.findMaps, hregistry.map]
  have hown :
      (SortedMap.ofList [(Builtin.groupOption, field)]).get?
        Builtin.groupOption =
      some field := by
    simp [SortedMap.ofList, SortedMap.insertAll, SortedMap.get?_insert]
  have hvalues : order.getD .natural ≠ .numeric := by
    cases order with
    | none => decide
    | some order => exact fun heq => horder (congrArg some heq)
  have hformats :
      (OutputSpec.formatOf? (assembly.outputOf ordinal) graphOutput).isSome =
        true ∧
      (OutputSpec.formatOf? (assembly.outputOf ordinal) sideOutput).isSome =
        true := by
    simp [OutputSpec.formatOf?, outputOf, sideOutput, graphOutput]
  have hmap := Registry.hasMap_of_findMap hregistry.map
  have hcombine := Registry.hasReduce_of_findReduce hregistry.combine
  have hreduce := Registry.hasReduce_of_findReduce hregistry.reduce
  have hknown : (["group-count"].filter (fun name => !registry.hasMap name) ++
      ["sum",
        "sum-side-effect"].filter fun name =>
          !registry.hasReduce name).isEmpty = true := by
    simp [hmap, hcombine, hreduce]
  exact {
    maps := hmaps
    view := get?_view_of_own (by decide) rfl hown fun _ => hrival
    sumsTwice := {
      combiner := ⟨"sum", rfl, hregistry.combine⟩
      reducer := ⟨"sum-side-effect", rfl, .inr hregistry.reduce⟩
      order := hvalues }
    reducer := ⟨"sum-side-effect", rfl, hregistry.reduce⟩
    graph := hformats.1
    side := hformats.2
    inside := staysInside_of_named fun entry hentry => by
      rcases List.mem_pair.1 hentry with rfl | rfl
      · exact (by decide : '/' ∉ sideOutput.toList)
      · exact (by decide : '/' ∉ graphOutput.toList)
    known := hknown }

private theorem canonical_of_reads {store : Store} {format : RecordFormat}
    {paths : List Path} {inputs : List (List Pair)}
    (h : List.Forall₂ (store.Reads format) paths inputs) :
    ∀ pair ∈ inputs.flatten, pair.value.Canonical := by
  induction h with
  | nil => simp
  | cons hread _ ih =>
      obtain ⟨content, -, hrecords⟩ := hread
      intro pair hpair
      rcases List.mem_append.1 hpair with hpair | hpair
      · exact RecordFormat.canonical_of_read hrecords pair hpair
      · exact ih pair hpair

/-- A job of one stage that counts succeeds, and counts the paths of each group
right. It takes a store where its files can be written, elements whose groups
have no other numbers than signed integers and are not too deep, and no group
with more paths than fit in 64 bits. The chain has no option of its own for the
field, and the partitions have room in memory. -/
theorem runJob_counts_paths {store : Store} {paths : List Path}
    {inputs : List (List Pair)} (hregistry : registry.KnowsCounts)
    (horder : order ≠ some .numeric)
    (hjob : assembly.assemble (countingBlock ordinal name field order) =
      .ok job)
    (hrival : ∀ zeros > 0,
      assembly.options.get? (Options.paddedName Builtin.groupOption zeros 0) =
        none)
    (hfits : outgrowsMemory job = false) (htree : Store.IsTree store)
    (hpaths : job.input.files store = .ok paths)
    (hreads : List.Forall₂ (store.Reads job.input.format) paths inputs)
    (hcountable : Builtin.AreCountable field (inputs.flatten.map Pair.value))
    (hwrites : ∃ last,
      Succeeds
        (Store.performAll
          (changesOf job inputs
            (Builtin.groupCounts field (inputs.flatten.map Pair.value)))) store
            () last) (id : String) :
    ∃ report after, Succeeds (runJob registry id job) store report after ∧
      report.status = .succeeded ∧
      LeavesCounts registry job field inputs store after := by
  obtain ⟨last, hsteps⟩ := hwrites
  have hcounts := countsGroups_of_assemble hregistry horder hjob hrival
  have hcanonical := canonical_of_reads hreads
  have hsums := Builtin.areCounts_counted hcanonical hcountable
  have hlearned :=
    Builtin.sums_counted_perm hcounts.sumsTwice.order hcanonical hcountable
  obtain ⟨report, after, hrun, hstatus⟩ :=
    exists_runOn hcounts hsums hlearned hsteps hfits id
  have hjobRun : Succeeds (runJob registry id job) store report after :=
    (outcome_runJob id hcounts.known hpaths hreads).trans hrun
  obtain ⟨inputs', made, ran, hcompletes⟩ :=
    completes_of_runJob hcounts.inside htree hjobRun hstatus
  obtain ⟨paths', hpaths', hreads'⟩ := hcompletes.reads
  obtain rfl : paths = paths' := Except.ok.inj (hpaths.symm.trans hpaths')
  obtain rfl : inputs = inputs' := by
    rw [← Store.map_recordsAt hreads, Store.map_recordsAt hreads']
  exact ⟨report, after, hjobRun, hstatus,
    leavesCounts_of_completes hcounts hcanonical hcountable hcompletes⟩

def sharedAssembly : Assembly :=
  { paddedAssembly with options := .ofList [(Options.reduceTasks, "3")] }

def sharedJob : Job := sharedAssembly.jobOf (countingBlock 0 "g" "n" none)

def vertices : List Pair :=
  [⟨.null, .ofFields [("n", .string "a"), ("paths", .ofNat 2)]⟩,
    ⟨.null, .ofFields [("paths", .array [.null])]⟩,
    ⟨.null, .ofFields [("n", .string "b"), ("paths", .ofNat 0)]⟩,
    ⟨.null, .ofFields [("n", .string "a"), ("paths", .ofNat 3)]⟩]

def verticesStore : Store :=
  ({} : Store).put ["in"]
    (.file (.text (RecordFormat.jsonLines.write vertices)))

theorem runJob_counts_paths_vertices :
    Builtin.groupCounts "n" (vertices.map Pair.value) = [⟨.null, .ofNat 1⟩,
      ⟨.string "a", .ofNat 5⟩] ∧ ∃ report after,
      Succeeds (runJob .builtin "" sharedJob) verticesStore report after ∧
        report.status = .succeeded ∧
        LeavesCounts .builtin sharedJob "n" [vertices] verticesStore after := by
  have hclear : sharedAssembly.options.IsUnscoped :=
    Options.isUnscoped_of_forall (by decide)
  have hjob : sharedAssembly.assemble (countingBlock 0 "g" "n" none) =
      .ok sharedJob := rfl
  have htree : Store.IsTree verticesStore :=
    @Store.isTree_put _ [] "in" _ Store.isTree_empty rfl (by decide) (by decide)
  have hpaths : sharedJob.input.files verticesStore = .ok [⟨"in"⟩] := by
    decide +kernel
  have hreads :
      List.Forall₂ (verticesStore.Reads sharedJob.input.format) [⟨"in"⟩]
        [vertices] :=
    .cons ⟨_, rfl, by decide +kernel⟩ .nil
  have hcounts : Builtin.groupCounts "n" (vertices.map Pair.value) =
      [⟨.null, .ofNat 1⟩, ⟨.string "a", .ofNat 5⟩] := by decide +kernel
  have hcountable :
      Builtin.AreCountable "n" ([vertices].flatten.map Pair.value) := by
    refine ⟨by decide +kernel, by decide +kernel, fun group => ?_⟩
    exact Nat.lt_of_le_of_lt (Builtin.pathsIn_le "n" _ group)
      (by decide +kernel)
  obtain ⟨⟨⟩, last, hwrites, -⟩ := @exists_succeeds _ _ _ _ verticesStore
    (Store.performAll (changesOf sharedJob [vertices]
      (Builtin.groupCounts "n" ([vertices].flatten.map Pair.value))))
    (fun _ => ()) () (by decide +kernel)
  refine ⟨hcounts, ?_⟩
  exact runJob_counts_paths ⟨rfl, rfl, rfl⟩ (by decide) hjob
    (fun zeros _ => hclear.get?_eq_none (Options.splitScope?_paddedName _ zeros
      (by decide)))
    (by decide) htree hpaths hreads hcountable ⟨last, hwrites⟩ ""

end Assembly

end JobChain
