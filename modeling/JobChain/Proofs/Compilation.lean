import JobChain.Proofs.Layout
import JobChain.Proofs.Options.Views
import JobChain.Proofs.Plan.Refusals
import Mathlib.Data.List.Nodup

/-!
# Compiled chains

The plan of a chain holds nothing but well-formed stages in blocks that are not
empty, whichever calls it has grown by, and to compile it is to wire them into
jobs. Only the package can be missing.
-/

namespace JobChain

/-! ## Growing a chain -/

private theorem Plan.check_of_enterAll {plan grown : Plan}
    {entries : List (Entry × Stage)} (h : plan.enterAll entries = .ok grown) :
    ∀ entry ∈ entries, entry.2.check = .ok () := by
  induction entries generalizing plan with
  | nil => simp
  | cons entry rest ih =>
      obtain ⟨entry, stage⟩ := entry
      rw [enterAll] at h
      cases hnext : plan.enter entry stage with
      | error error => simp [hnext] at h
      | ok next =>
          rw [hnext] at h
          exact List.forall_mem_cons.2 ⟨check_of_enter hnext, ih h⟩

namespace Chain

def ofCalls (options : Options) (trackPaths : Bool)
    (calls : List (Plan.Entry × Stage)) : Chain :=
  (makeCalls calls { options, trackPaths }).2

private theorem exists_makeCalls_eq (calls : List (Plan.Entry × Stage))
    (chain : Chain) : ∃ accepted plan, chain.plan.enterAll accepted = .ok plan ∧
      (makeCalls calls chain).2 = { chain with plan } := by
  induction calls generalizing chain with
  | nil => exact ⟨[], chain.plan, rfl, rfl⟩
  | cons call rest ih =>
      obtain ⟨entry, stage⟩ := call
      rw [makeCalls_cons, enter_run]
      cases hnext : chain.plan.enter entry stage with
      | error error => exact ih chain
      | ok next =>
          obtain ⟨accepted, plan, hplan, hchain⟩ :=
            ih { chain with plan := next }
          refine ⟨(entry, stage) :: accepted, plan, ?_, hchain⟩
          rw [Plan.enterAll, hnext]
          exact hplan

end Chain

/-! ## Assembling -/

namespace Assembly

variable {assembly : Assembly} {block : Block} {name : String}

private theorem checkAll_eq_ok {stages : List Stage}
    (h : ∀ stage ∈ stages, stage.check = .ok ()) :
    checkAll stages = .ok () := by
  induction stages with
  | nil => rfl
  | cons stage rest ih =>
      obtain ⟨hstage, hrest⟩ := List.forall_mem_cons.1 h
      rw [checkAll, hstage]
      exact ih hrest

theorem assemble_of_checked (hne : block.stages ≠ [])
    (hchecked : ∀ stage ∈ block.stages, stage.check = .ok ()) :
    assembly.assemble block = .ok (assembly.jobOf block) := by
  rw [assemble, if_neg (by simpa using hne), checkAll_eq_ok hchecked]

private theorem assembleAll_of_checked {blocks : List Block}
    (hne : ∀ block ∈ blocks, block.stages ≠ [])
    (hchecked : ∀ block ∈ blocks, ∀ stage ∈ block.stages,
      stage.check = .ok ()) :
    assembly.assembleAll blocks = .ok (blocks.map assembly.jobOf) := by
  induction blocks with
  | nil => rfl
  | cons block rest ih =>
      obtain ⟨hblock, hrest⟩ := List.forall_mem_cons.1 hne
      obtain ⟨hstages, hothers⟩ := List.forall_mem_cons.1 hchecked
      rw [assembleAll, assemble_of_checked hblock hstages, ih hrest hothers]
      rfl

private theorem get?_optionsOf_of_no_dash (hdash : '-' ∉ name.toList) :
    (assembly.optionsOf block).get? name =
      (assembly.options.get? name).or
        (if block.hasReduce then shuffleOption? name else none) := by
  have hne : name ≠ Options.trackPaths := by
    rintro rfl
    exact hdash (by decide)
  rw [get?_optionsOf, if_neg hne, get?_addScoped_of_ne]
  rintro other n - - rfl
  exact hdash (by simp [Options.scopedName])

end Assembly

def Options.positiveCount? (options : Options) (name : String) : Option Nat :=
  ((options.get? name).bind fun text => Text.readNat? (Text.trim text)).filter
    fun n => 0 < n

private theorem Options.positiveCount?_getD_pos (options : Options)
    (name : String) : 0 < (options.positiveCount? name).getD 1 := by
  cases hcount : options.positiveCount? name with
  | none => exact Nat.one_pos
  | some n => exact of_decide_eq_true (Option.filter_eq_some_iff.1 hcount).2

private theorem Assembly.reduceTasksOf_optionsOf (assembly : Assembly)
    (block : Block) : reduceTasksOf (assembly.optionsOf block) block =
      if block.hasReduce then
        (assembly.options.positiveCount? Options.reduceTasks).getD 1
        else 0 := by
  have hget : (assembly.optionsOf block).get? Options.reduceTasks =
      assembly.options.get? Options.reduceTasks := by
    rw [get?_optionsOf_of_no_dash (by decide),
      show shuffleOption? Options.reduceTasks =
        none by decide, ite_self, Option.or_none]
  rw [reduceTasksOf, Options.count, hget, Options.positiveCount?]
  congr 1
  cases (assembly.options.get? Options.reduceTasks).bind fun text =>
    Text.readNat? (Text.trim text) with
  | none => rfl
  | some n =>
      rcases Nat.eq_zero_or_pos n with rfl | hpos
      · rfl
      · have hmax : max n 1 = n := Nat.max_eq_left hpos
        simp [Option.filter, hpos, hmax]

/-! ## Wiring -/

/-- The jobs of a chain on a dataset, each of which reads what the one before it
leaves. -/
structure Chain.Wires (chain : Chain) (dataset : Dataset) (package : Path)
    (jobs : List Job) : Prop where
  blocks : List.Forall₂ (fun block job => job.name = block.name ∧
    job.stages = block.stages) chain.plan.blocks jobs
  ordinals : jobs.map Job.ordinal = List.range jobs.length
  packages : ∀ job ∈ jobs, job.package = package
  first : ∀ job, jobs.head? = some job →
    job.input = { location := dataset.input, format := dataset.inputFormat }
  next : ∀ index job next, jobs[index]? = some job →
    jobs[index + 1]? = some next →
    next.input = { location := job.output.location, format := .intermediate } ∧
      job.output.format = .intermediate
  last : ∀ job, jobs.getLast? = some job →
      job.output.format = dataset.outputFormat
  named : ∀ job ∈ jobs, job.output.named =
    [⟨sideOutput, dataset.sideFormat⟩, ⟨graphOutput, job.output.format⟩]
  places : ∀ here,
      (jobs.map fun job => Store.placeOf here job.output.location).Nodup
  reduce : ∀ job ∈ jobs, ∀ stage ∈ job.stages, stage.isMapReduce = true →
    job.hasReduce = true ∧ job.reducer = stage.reduce ∧
    job.combiner = stage.combine ∧ job.keyOrder = stage.keyOrder
  no_reduce : ∀ job ∈ jobs, (∀ stage ∈ job.stages, stage.isMapReduce = false) →
    job.reducer = none ∧ job.combiner = none ∧ job.keyOrder = none
  reduceTasks : ∀ job ∈ jobs, job.reduceTasks =
    if job.hasReduce then
      (chain.options.positiveCount? Options.reduceTasks).getD 1
    else 0
  reduceTasks_eq_zero : ∀ job ∈ jobs, job.reduceTasks = 0 ↔
      job.hasReduce = false
  compression : ∀ job ∈ jobs, ∀ name ∈ [Options.compress,
    Options.compressCodec], job.options.get? name = (chain.options.get? name).or
      (if job.hasReduce then Assembly.shuffleOption? name else none)

namespace Block

variable {block : Block}

private theorem reduceStage?_of_mem
    (hmaps : ∀ stage ∈ block.stages.dropLast, stage.isMapReduce = false)
    {stage : Stage} (hmem : stage ∈ block.stages)
    (hreduce : stage.isMapReduce = true) : block.reduceStage? = some stage := by
  have hne := List.ne_nil_of_mem hmem
  have hlast : stage = block.stages.getLast hne := by
    rw [← List.dropLast_append_getLast hne, List.mem_append,
      List.mem_singleton] at hmem
    rcases hmem with hmem | hmem
    · rw [hmaps stage hmem] at hreduce
      cases hreduce
    · exact hmem
  rw [reduceStage?, List.getLast?_eq_some_getLast hne, ← hlast,
    Option.filter_some, if_pos hreduce]

private theorem reduceStage?_eq_none
    (h : ∀ stage ∈ block.stages, stage.isMapReduce = false) :
    block.reduceStage? = none := by
  rw [reduceStage?, Option.filter_eq_none_iff]
  intro stage hstage
  simp [h stage (List.mem_of_getLast? hstage)]

end Block

private theorem IsWired.nodup_places {dataset : Dataset} {jobs : List Job}
    (h : IsWired dataset jobs) (here : Place) :
    (jobs.map fun job => Store.placeOf here job.output.location).Nodup := by
  have hplaces : (jobs.map fun job => Store.placeOf here job.output.location) =
      (List.range jobs.length).map fun index =>
        Store.placeOf here dataset.output ++ [Dataset.jobDirectory index] := by
    apply List.ext_getElem?
    intro index
    rw [List.getElem?_map, List.getElem?_map]
    cases hjob : jobs[index]? with
    | none =>
        rw [List.getElem?_eq_none
          (by simpa using List.getElem?_eq_none_iff.1 hjob)]
        rfl
    | some job =>
        have hlt := (List.getElem?_eq_some_iff.1 hjob).1
        rw [List.getElem?_range hlt, Option.map_some, Option.map_some,
          h.isLaidOut.location_eq index job hjob, dataset.placeOf_jobLocation]
  rw [hplaces]
  refine List.Nodup.map ?_ List.nodup_range
  intro index index' heq
  exact Dataset.jobDirectory_injective
    (List.singleton_inj.1 (List.append_cancel_left heq))

namespace Chain

variable {chain : Chain} {dataset : Dataset} {package : Path}
  {stages : List Stage}

/-- What the blocks of a chain are like whose plan has grown from nothing. -/
structure IsSound (chain : Chain) : Prop where
  ne_nil : ∀ block ∈ chain.plan.blocks, block.stages ≠ []
  checked : ∀ block ∈ chain.plan.blocks, ∀ stage ∈ block.stages,
      stage.check = .ok ()
  maps_before : ∀ block ∈ chain.plan.blocks, ∀ stage ∈ block.stages.dropLast,
    stage.isMapReduce = false
  ordinals : chain.plan.blocks.map Block.ordinal =
      List.range chain.plan.blocks.length

theorem isSound_of_enterAll {entries : List (Plan.Entry × Stage)}
    (hgrown : Plan.enterAll {} entries = .ok chain.plan) : chain.IsSound := by
  have htight := Plan.isTightFor_nil.enterAll hgrown
  have hmem : ∀ block ∈ chain.plan.blocks,
      block.stages ∈ chain.plan.blocks.map Block.stages :=
    fun block hblock => List.mem_map_of_mem hblock
  have hchecked : ∀ block ∈ chain.plan.blocks, ∀ stage ∈ block.stages,
      stage.check = .ok () := by
    intro block hblock stage hstage
    have hentered := List.mem_flatten_of_mem (hmem block hblock) hstage
    rw [htight.divides.flatten_eq] at hentered
    obtain ⟨entry, hentry, rfl⟩ := List.mem_map.1 hentered
    exact Plan.check_of_enterAll hgrown entry hentry
  exact {
    ne_nil := fun block hblock => htight.divides.ne_nil _ (hmem block hblock)
    checked := hchecked
    maps_before := fun block hblock =>
      htight.divides.maps_before _ (hmem block hblock)
    ordinals := htight.ordinals }

namespace IsSound

variable (h : chain.IsSound) {block : Block}

include h

private theorem hasReduce_jobOf (assembly : Assembly)
    (hblock : block ∈ chain.plan.blocks) :
    (assembly.jobOf block).hasReduce = block.hasReduce :=
  Assembly.hasReduce_of_assemble
    (Assembly.assemble_of_checked (h.ne_nil block hblock)
      (h.checked block hblock))

theorem compile_eq (hne : chain.plan.blocks ≠ []) (dataset : Dataset)
    (store : Store) (home? : Option String) :
    (chain.compile store home? dataset).2 =
      match (Package.locate store home? chain.options).2 with
      | .error cause => .error (.package cause)
      | .ok package =>
          .ok
            (chain.plan.blocks.map (chain.assembly dataset package).jobOf) := by
  rw [compile, if_neg (by simpa using hne)]
  obtain ⟨log, result⟩ := Package.locate store home? chain.options
  cases result with
  | error cause => rfl
  | ok package => simp only [Assembly.assembleAll_of_checked h.ne_nil h.checked]

private theorem reduce_jobOf (assembly : Assembly)
    (hblock : block ∈ chain.plan.blocks) {stage : Stage}
    (hstage : stage ∈ block.stages) (hreduce : stage.isMapReduce = true) :
    (assembly.jobOf block).hasReduce = true ∧
    (assembly.jobOf block).reducer = stage.reduce ∧
      (assembly.jobOf block).combiner = stage.combine ∧
      (assembly.jobOf block).keyOrder = stage.keyOrder := by
  have hfound :=
    Block.reduceStage?_of_mem (h.maps_before block hblock) hstage hreduce
  refine ⟨?_, ?_, ?_, ?_⟩
  · rw [h.hasReduce_jobOf assembly hblock, Block.hasReduce, hfound,
      Option.isSome_some]
  all_goals
    simp only [Assembly.jobOf, hfound, Option.bind_some]

end IsSound

private theorem no_reduce_jobOf (assembly : Assembly) {block : Block}
    (hmaps : ∀ stage ∈ block.stages, stage.isMapReduce = false) :
    (assembly.jobOf block).reducer = none ∧
    (assembly.jobOf block).combiner = none ∧
      (assembly.jobOf block).keyOrder = none := by
  simp only [Assembly.jobOf, Block.reduceStage?_eq_none hmaps, Option.bind_none,
    and_self]

private theorem forall₂_jobOf (assembly : Assembly) (blocks : List Block) :
    List.Forall₂ (fun block job => job.name = block.name ∧
      job.stages = block.stages) blocks (blocks.map assembly.jobOf) := by
  induction blocks with
  | nil => exact .nil
  | cons block rest ih => exact .cons ⟨rfl, rfl⟩ ih

private theorem IsSound.wires (h : chain.IsSound)
    (hwired : IsWired dataset
      (chain.plan.blocks.map (chain.assembly dataset package).jobOf)) :
    chain.Wires dataset package
      (chain.plan.blocks.map (chain.assembly dataset package).jobOf) where
  blocks := forall₂_jobOf _ _
  ordinals := by rw [List.length_map, List.map_map, ← h.ordinals]; rfl
  packages := List.forall_mem_map.2 fun _ _ => rfl
  first := by
    intro job hjob
    rw [List.head?_eq_getElem?] at hjob
    exact hwired.input_eq 0 job hjob
  next := by
    intro index job next hjob hnext
    obtain ⟨hformat, -, hinput⟩ := hwired.next hjob hnext
    exact ⟨hinput, hformat⟩
  last := by
    intro job hjob
    rw [List.getLast?_eq_getElem?] at hjob
    obtain ⟨assembly, rfl, htotal, houtput⟩ := hwired.output_eq _ job hjob
    have hlt := (List.getElem?_eq_some_iff.1 hjob).1
    rw [houtput]
    exact if_pos (by omega)
  named := List.forall_mem_map.2 fun _ _ => rfl
  places := hwired.nodup_places
  reduce := List.forall_mem_map.2 fun block hblock _ => h.reduce_jobOf _ hblock
  no_reduce := List.forall_mem_map.2 fun block _ => no_reduce_jobOf _
  reduceTasks := List.forall_mem_map.2 fun block hblock => by
    rw [h.hasReduce_jobOf _ hblock]
    exact Assembly.reduceTasksOf_optionsOf _ block
  reduceTasks_eq_zero := List.forall_mem_map.2 fun block hblock => by
    have htasks :=
      Assembly.reduceTasksOf_optionsOf (chain.assembly dataset package) block
    have hpos :=
      (chain.assembly dataset package).options.positiveCount?_getD_pos
        Options.reduceTasks
    change Assembly.reduceTasksOf _ block = 0 ↔ _
    rw [h.hasReduce_jobOf _ hblock, htasks]
    cases block.hasReduce with
    | true => simpa using Nat.ne_of_gt hpos
    | false => simp
  compression := List.forall_mem_map.2 fun block hblock name hname => by
    have hdash : ∀ name ∈ [Options.compress, Options.compressCodec],
        '-' ∉ name.toList := by decide
    rw [h.hasReduce_jobOf _ hblock]
    exact Assembly.get?_optionsOf_of_no_dash (hdash name hname)

/-- A chain is compiled unless its package cannot be found. -/
theorem compile_wires (options : Options) (trackPaths : Bool)
    (calls : List (Plan.Entry × Stage)) (store : Store) (home? : Option String)
    (dataset : Dataset) : ((ofCalls options trackPaths calls).plan.blocks = [] ∧
      ((ofCalls options trackPaths calls).compile store home? dataset).2 =
        .ok []) ∨
    (∃ cause, (Package.locate store home? options).2 = .error cause ∧
      ((ofCalls options trackPaths calls).compile store home? dataset).2 =
        .error (.package cause)) ∨
    ∃ package jobs, (Package.locate store home? options).2 = .ok package ∧
      ((ofCalls options trackPaths calls).compile store home? dataset).2 =
        .ok jobs ∧
      (ofCalls options trackPaths calls).Wires dataset package jobs := by
  obtain ⟨accepted, plan, hgrown, hchain⟩ :=
    exists_makeCalls_eq calls { options, trackPaths }
  rw [ofCalls, hchain]
  by_cases hblocks : plan.blocks = []
  · refine .inl ⟨hblocks, ?_⟩
    simp [compile, hblocks]
  have hsound : ({ options, trackPaths, plan } : Chain).IsSound :=
    isSound_of_enterAll hgrown
  have hcompile := hsound.compile_eq hblocks dataset store home?
  refine .inr ?_
  cases hpackage : (Package.locate store home? options).2 with
  | error cause =>
      simp only [hpackage] at hcompile
      exact .inl ⟨cause, rfl, hcompile⟩
  | ok package =>
      simp only [hpackage] at hcompile
      exact .inr ⟨package, _, rfl, hcompile,
        hsound.wires (isWired_of_compile hgrown hcompile)⟩

end Chain

end JobChain
