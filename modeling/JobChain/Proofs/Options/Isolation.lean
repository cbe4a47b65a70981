import JobChain.Proofs.Options.Views
import JobChain.Proofs.Store.Likeness

/-!
# Stages kept apart by their options

The options of a stage are packed under names that no other stage unpacks and
from which no setting of the job is read. So a stage can change what itself
sees, and nothing else of its job.
-/

namespace JobChain

/-! ## Options that belong to other steps -/

namespace Options

/-- Options that have the same entries, those of the stage at a step left
aside. -/
def AgreeOutside (step : Nat) (options other : Options) : Prop :=
  ∀ key, (∀ name, splitScope? key ≠ some (name, step)) →
    options.get? key = other.get? key

def belongsTo (step : Nat) (key : String) : Bool :=
  (splitScope? key).any fun part => part.2 = step

private theorem belongsTo_eq_false_iff {step : Nat} {key : String} :
    belongsTo step key = false ↔
    ∀ name, splitScope? key ≠ some (name, step) := by
  cases hsplit : splitScope? key with
  | none => simp [belongsTo, hsplit]
  | some part => simp [belongsTo, hsplit, Prod.ext_iff]

namespace AgreeOutside

variable {options other : Options} {step n : Nat}

theorem filter_eq (h : AgreeOutside step options other) :
    options.filter (fun key _ => !belongsTo step key) =
      other.filter (fun key _ => !belongsTo step key) := by
  apply SortedMap.ext_get?
  intro key
  rw [SortedMap.get?_filter, SortedMap.get?_filter]
  cases hkey : belongsTo step key with
  | true => cases options.get? key <;> cases other.get? key <;> rfl
  | false => rw [h key (belongsTo_eq_false_iff.1 hkey)]

private theorem shared_eq (h : AgreeOutside step options other) :
    options.shared = other.shared := by
  apply SortedMap.ext_get?
  intro key
  rw [get?_shared, get?_shared]
  split
  · rename_i hnone
    exact h key (by simp [hnone])
  · rfl

end AgreeOutside

private theorem ownOf_filter {step n : Nat} (hne : n ≠ step)
    (options : Options) :
    ownOf (options.filter fun key _ => !belongsTo step key) n =
      options.ownOf n := by
  rw [ownOf_eq, ownOf_eq]
  change (options.toList.filter fun entry => !belongsTo step entry.1).filterMap
      (owned n) = _
  rw [List.filterMap_filter]
  congr 1
  funext entry
  cases howned : owned n entry with
  | none => exact ite_self none
  | some own =>
      refine if_pos ?_
      rw [Bool.not_eq_true', belongsTo_eq_false_iff,
        (owned_eq_some_iff.1 howned).1]
      intro name hname
      exact hne (Prod.mk.inj (Option.some.inj hname)).2

private theorem AgreeOutside.view_eq {options other : Options} {step n : Nat}
    (h : AgreeOutside step options other) (hne : n ≠ step) :
    options.view n = other.view n := by
  rw [view, view, h.shared_eq, ← ownOf_filter hne options, h.filter_eq,
    ownOf_filter hne other]

end Options

/-! ## Versions of a block -/

def Stage.bare (stage : Stage) : Stage :=
  { stage with options := SortedMap.empty }

namespace Block

def withOptionsAt (block : Block) (step : Nat) (options : Options) : Block :=
  { block with stages := block.stages.modify step fun stage =>
    { stage with options } }

variable (block : Block) (options : Options) {step n : Nat}

private theorem getElem?_withOptionsAt (hne : n ≠ step) :
    (block.withOptionsAt step options).stages[n]? = block.stages[n]? :=
  List.getElem?_modify_ne _ _ hne.symm

private theorem map_bare_withOptionsAt (step : Nat) :
    (block.withOptionsAt step options).stages.map Stage.bare =
      block.stages.map Stage.bare := by
  apply List.ext_getElem?
  intro index
  rw [List.getElem?_map, List.getElem?_map, withOptionsAt, List.getElem?_modify]
  cases block.stages[index]? with
  | none => rfl
  | some stage =>
      by_cases heq : step = index <;> simp [heq, Stage.bare]

variable {block} {other : Block}
  (h : block.stages.map Stage.bare = other.stages.map Stage.bare)

include h

private theorem name_eq_of_bare : block.name = other.name := by
  have hnames : ∀ stages : List Stage, (stages.map Stage.bare).map Stage.name =
      stages.map Stage.name :=
    fun stages => by rw [List.map_map]; rfl
  rw [name, name, ← hnames, h, hnames]

private theorem length_eq_of_bare :
    block.stages.length = other.stages.length := by
  simpa using congrArg List.length h

private theorem reduceStage?_eq_of_bare :
    block.reduceStage?.map Stage.bare = other.reduceStage?.map Stage.bare := by
  have hlast : ∀ block : Block, block.reduceStage?.map Stage.bare =
      (block.stages.map Stage.bare).getLast?.filter Stage.isMapReduce := by
    intro block
    rw [reduceStage?, List.getLast?_map]
    cases block.stages.getLast? with
    | none => rfl
    | some stage =>
        have hkind : stage.bare.isMapReduce = stage.isMapReduce := rfl
        cases hreduce : stage.isMapReduce <;> simp [Option.filter, hkind,
          hreduce]
  rw [hlast, hlast, h]

private theorem hasReduce_eq_of_bare : block.hasReduce = other.hasReduce := by
  have hreduce := congrArg Option.isSome (reduceStage?_eq_of_bare h)
  rwa [Option.isSome_map, Option.isSome_map] at hreduce

private theorem reduceStage?_bind_eq_of_bare {α : Type}
    {part : Stage → Option α} (hpart : ∀ stage, part stage.bare = part stage) :
    block.reduceStage?.bind part = other.reduceStage?.bind part := by
  have hbind :=
    congrArg (fun stage? => stage?.bind part) (reduceStage?_eq_of_bare h)
  simpa [Option.bind_map, Function.comp_def, hpart] using hbind

end Block

/-! ## Versions of a job -/

/-- Two jobs of which nothing can be told apart but what the stage at a step
sees. -/
structure Job.AgreeOutside (step : Nat) (job other : Job) : Prop where
  view : ∀ n ≠ step, job.options.view n = other.options.view n
  reduceView : step + 1 ≠ job.stages.length → job.reduceView = other.reduceView
  name : job.name = other.name
  input : job.input = other.input
  output : job.output = other.output
  keyOrder : job.keyOrder = other.keyOrder
  combiner : job.combiner = other.combiner
  reducer : job.reducer = other.reducer
  reduceTasks : job.reduceTasks = other.reduceTasks
  package : job.package = other.package

namespace Assembly

variable (assembly : Assembly) (block : Block) (options : Options) {step : Nat}

private theorem checkAll_eq_of_bare {stages others : List Stage}
    (h : stages.map Stage.bare = others.map Stage.bare) :
    checkAll stages = checkAll others := by
  have hbare : ∀ stages : List Stage, checkAll (stages.map Stage.bare) =
      checkAll stages := by
    intro stages
    induction stages with
    | nil => rfl
    | cons stage rest ih =>
        rw [List.map_cons, checkAll, checkAll, ih]
        rfl
  rw [← hbare, h, hbare]

private theorem agreeOutside_optionsOf (hword : step < 2 ^ 64) :
    Options.AgreeOutside step (assembly.optionsOf block)
      (assembly.optionsOf (block.withOptionsAt step options)) := by
  intro key hkey
  have hbare := block.map_bare_withOptionsAt options step
  have hpacked : (addScoped assembly.options 0 block.stages).get? key =
      (addScoped assembly.options 0
        (block.withOptionsAt step options).stages).get? key := by
    by_cases hscoped : ∃ name n, key = Options.scopedName name n
    · obtain ⟨name, n, rfl⟩ := hscoped
      have hne : n ≠ step := by
        rintro rfl
        exact hkey name (Options.splitScope?_scopedName name hword)
      have hfound := fun stages =>
        get?_addScoped_scopedName assembly.options 0 stages name n
      simp only [Nat.zero_add] at hfound
      rw [hfound, hfound, block.getElem?_withOptionsAt options hne]
    · push Not at hscoped
      rw [get?_addScoped_of_ne fun name n _ _ => hscoped name n,
        get?_addScoped_of_ne fun name n _ _ => hscoped name n]
  rw [get?_optionsOf, get?_optionsOf, hpacked, Block.hasReduce_eq_of_bare hbare]

private theorem reduceTasksOf_eq {packed packed' : Options} {other : Block}
    (hpacked : Options.AgreeOutside step packed packed')
    (hreduce : block.hasReduce = other.hasReduce) :
    reduceTasksOf packed block = reduceTasksOf packed' other := by
  have hshared : Options.splitScope? Options.reduceTasks = none := by decide
  rw [reduceTasksOf, reduceTasksOf, Options.count, Options.count,
    hpacked _ (by simp [hshared]), hreduce]

private theorem agreeOutside_jobOf (hword : step < 2 ^ 64)
    (hne : block.stages ≠ []) : (assembly.jobOf block).AgreeOutside step
      (assembly.jobOf (block.withOptionsAt step options)) := by
  have hpacked := assembly.agreeOutside_optionsOf block options hword
  have hbare := (block.map_bare_withOptionsAt options step).symm
  have hlength := Block.length_eq_of_bare hbare
  have hreduceView : step + 1 ≠ block.stages.length →
      (assembly.jobOf block).reduceView =
        (assembly.jobOf (block.withOptionsAt step options)).reduceView := by
    intro hlast
    have hpos := List.length_pos_of_ne_nil hne
    have hother : block.stages.length - 1 ≠ step := by omega
    change (assembly.optionsOf block).view (block.stages.length - 1) =
      (assembly.optionsOf (block.withOptionsAt step options)).view
        ((block.withOptionsAt step options).stages.length - 1)
    rw [← hlength, hpacked.view_eq hother]
  exact {
    view := fun n hother => hpacked.view_eq hother
    reduceView := hreduceView
    name := Block.name_eq_of_bare hbare
    input := rfl
    output := rfl
    keyOrder := Block.reduceStage?_bind_eq_of_bare hbare fun _ => rfl
    combiner := Block.reduceStage?_bind_eq_of_bare hbare fun _ => rfl
    reducer := Block.reduceStage?_bind_eq_of_bare hbare fun _ => rfl
    reduceTasks := reduceTasksOf_eq block hpacked (Block.hasReduce_eq_of_bare hbare)
    package := rfl }

/-- Whatever options a stage of a job gets, the job is assembled or refused as
before, and nothing but what the stage itself sees changes. -/
theorem assemble_withOptionsAt (hword : step < 2 ^ 64) :
    Matches (Job.AgreeOutside step) (assembly.assemble block)
      (assembly.assemble (block.withOptionsAt step options)) := by
  have hbare := block.map_bare_withOptionsAt options step
  have hlength := Block.length_eq_of_bare hbare
  rw [assemble, assemble, checkAll_eq_of_bare hbare]
  cases hstages : block.stages with
  | nil =>
      rw [hstages, List.length_nil, List.length_eq_zero_iff] at hlength
      rw [hlength]
      exact .error _
  | cons stage rest =>
      have hne : block.stages ≠ [] := by simp [hstages]
      have hne' : (block.withOptionsAt step options).stages ≠ [] := by
        rw [← List.length_pos_iff, hlength]
        exact List.length_pos_of_ne_nil hne
      rw [← hstages, if_neg (by simpa using hne), if_neg (by simpa using hne')]
      cases checkAll block.stages with
      | error error => exact .error error
      | ok _ => exact .ok (assembly.agreeOutside_jobOf block options hword hne)

def intrudingOptions : Options :=
  .ofList [("k", "first"), ("k-1", "second"), (Options.reduceTasks, "9"),
    (Options.trackPaths, "true")]

theorem assemble_withOptionsAt_intruding :
    ∃ job other, paddedAssembly.assemble paddedBlock = .ok job ∧
      paddedAssembly.assemble (paddedBlock.withOptionsAt 0 intrudingOptions) =
        .ok other ∧
      other.options ≠ job.options ∧ other.reduceView.get? "k" = some "second" ∧
      other.reduceTasks = 1 := by
  have hmatches :=
    paddedAssembly.assemble_withOptionsAt paddedBlock intrudingOptions
      (by decide : 0 < 2 ^ 64)
  have hjob : paddedAssembly.assemble paddedBlock =
      .ok (paddedAssembly.jobOf paddedBlock) := rfl
  have hother :
      paddedAssembly.assemble (paddedBlock.withOptionsAt 0 intrudingOptions) =
      .ok
        (paddedAssembly.jobOf (paddedBlock.withOptionsAt 0 intrudingOptions)) :=
    rfl
  rw [hjob, hother] at hmatches
  obtain ⟨hagree⟩ := hmatches
  refine ⟨_, _, hjob, hother, by decide, ?_, ?_⟩
  · rw [← hagree.reduceView (by decide)]
    decide
  · rw [← hagree.reduceTasks]
    decide

end Assembly

end JobChain
