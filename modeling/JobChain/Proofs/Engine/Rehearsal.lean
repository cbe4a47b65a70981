import JobChain.Proofs.Engine.Likeness
import JobChain.Proofs.Engine.Partitions

/-!
# Changes of a store, whatever files hold

The directories that a job makes, the files that it writes and those that it
deletes can be told before it runs. Where the same changes succeed with files
that hold nothing, those of the job succeed.
-/

namespace JobChain

/-! ## Tasks with one named output -/

namespace Task

def oneNamed (output : String)
    (pairs : List Pair) : SortedMap String (Array Pair) :=
  if pairs = [] then .empty else SortedMap.empty.insert output pairs.toArray

private theorem update_oneNamed (output : String) (pairs : List Pair)
    (pair : Pair) :
    (oneNamed output pairs).update output
      (fun pairs => (pairs.getD #[]).push pair) =
      oneNamed output (pairs ++ [pair]) := by
  apply SortedMap.ext_get?
  intro name
  by_cases hempty : pairs = [] <;> by_cases hname : name = output <;>
    simp [oneNamed, SortedMap.update, SortedMap.get?_insert, hempty, hname]

private theorem named_performAll {output : String} {actions : List Action}
    {task : Task} {pairs : List Pair}
    (htask : task.named = oneNamed output pairs)
    (h : ∀ name ≠ output, namedPairs name actions = []) :
    (task.performAll actions).named =
      oneNamed output (pairs ++ namedPairs output actions) := by
  induction actions generalizing task pairs with
  | nil => simpa using htask
  | cons action rest ih =>
      simp only [namedPairs_cons, List.append_eq_nil_iff] at h ⊢
      have hrest : ∀ name ≠ output, namedPairs name rest = [] :=
        fun name hname => (h name hname).2
      rw [performAll_cons]
      cases action with
      | writeNamed name pair =>
          by_cases hname : name = output
          · subst hname
            have hstep : (task.perform (.writeNamed name pair)).named =
                oneNamed name (pairs ++ [pair]) := by
              rw [← update_oneNamed, ← htask]
              rfl
            rw [ih hstep hrest]
            simp [Action.namedPair?]
          · have hnone := (h name hname).1
            simp [Action.namedPair?] at hnone
      | write | count | setStatus | progress =>
          exact @ih (task.perform _) pairs htask hrest

theorem named_of_single {output : String} {actions : List Action}
    (h : ∀ name ≠ output, namedPairs name actions = []) :
    (({} : Task).performAll actions).named =
      oneNamed output (namedPairs output actions) :=
  @named_performAll output actions {} [] rfl h

end Task

namespace Engine

theorem writeAll_oneNamed (job : Job) (side : Side) (task : Nat)
    (output : String) (pairs : List Pair) :
    writeAll job side task (Task.oneNamed output pairs).toList =
      writeOutput job side task output pairs := by
  by_cases hempty : pairs = []
  · subst hempty
    rfl
  · rw [Task.oneNamed, if_neg hempty]
    change writeOutput job side task output pairs.toArray.toList >>=
        (fun _ => pure ()) = _
    rw [List.toList_toArray]
    exact bind_pure_unit

end Engine

/-! ## Writing whatever files hold -/

namespace Store

/-- A change of a store for which contents make no difference. -/
inductive Step where
  | makeDirectories (path : Path)
  | save (path : Path)
  | delete (path : Path)
  | mark (path : Path)

def Step.perform : Step → StoreM Unit
  | .makeDirectories path => Store.makeDirectories path
  | .save path => RecordFormat.intermediate.save path []
  | .delete path => do
      let _ ← Store.delete path true
      pure ()
  | .mark path => Store.change fun store => store.write path (.text "")

def performAll : List Step → StoreM Unit
  | [] => pure ()
  | step :: rest => do
      step.perform
      performAll rest

theorem succeeds_performAll_append {store after : Store}
    {steps steps' : List Step} :
    Succeeds (performAll (steps ++ steps')) store () after ↔
      ∃ between, Succeeds (performAll steps) store () between ∧
        Succeeds (performAll steps') between () after := by
  induction steps generalizing store with
  | nil => simp [performAll, succeeds_pure_iff]
  | cons step rest ih =>
      simp only [List.cons_append, performAll, succeeds_bind_iff, ih]
      constructor
      · rintro ⟨⟨⟩, first, hfirst, between, hrest, hlast⟩
        exact ⟨between, ⟨(), first, hfirst, hrest⟩, hlast⟩
      · rintro ⟨between, ⟨⟨⟩, first, hfirst, hrest⟩, hlast⟩
        exact ⟨(), first, hfirst, between, hrest, hlast⟩

theorem succeeds_performAll_cons {store after : Store} {step : Step}
    {rest : List Step} : Succeeds (performAll (step :: rest)) store () after ↔
      ∃ between, Succeeds step.perform store () between ∧
        Succeeds (performAll rest) between () after := by
  rw [performAll, succeeds_bind_iff]
  exact ⟨fun ⟨_, between, h⟩ => ⟨between, h⟩,
    fun ⟨between, h⟩ => ⟨(), between, h⟩⟩

abbrev SameShape (here : Place) : Store → Store → Prop :=
  Resembles here fun _ _ _ => True

theorem SameShape.exists_save {here : Place} {store other after : Store}
    {path : Path} (h : SameShape here store other)
    (hstep : Succeeds (Step.save path).perform other () after)
    (format : RecordFormat) (pairs : List Pair) :
    ∃ left, Succeeds (format.save path pairs) store () left ∧
      SameShape here left after := by
  have hsave := @Resembles.save here
    (fun _ _ _ => True) _ _ h format .intermediate path pairs [] (.inr trivial)
  obtain ⟨⟨⟩, left, hsucceeds, -, hshape⟩ := hsave.exists_succeeds hstep
  exact ⟨left, hsucceeds, hshape⟩

end Store

namespace Engine

open Store (SameShape Step performAll)

/-! ## The changes that a job makes -/

def filesOf (job : Job) (side : Side) (output : String) :
    Nat → List (List Pair) → List Path
  | _, [] => []
  | task, pairs :: rest =>
      (if pairs.isEmpty then [] else (formatFor? job output).toList.map
        fun format =>
          job.output.location.child (outputName output side task format)) ++
        filesOf job side output (task + 1) rest

theorem filesOf_congr {job : Job} {side : Side} {output : String} {task : Nat}
    {parts parts' : List (List Pair)}
    (h : List.Forall₂
      (fun part part' => part.isEmpty = part'.isEmpty) parts parts') :
    filesOf job side output task parts =
      filesOf job side output task parts' := by
  induction h generalizing task with
  | nil => rfl
  | cons hempty _ ih => rw [filesOf, filesOf, hempty, ih]

/-- The changes of a store that a job makes which keeps a graph and learns some
records. -/
def changesOf (job : Job) (graph : List (List Pair))
    (learned : List Pair) : List Step :=
  let shuffle := job.output.location.child temporaryDirectory
  let count := max job.reduceTasks 1
  .makeDirectories job.output.location ::
    ((filesOf job .map graphOutput 0 graph).map .save ++
      .makeDirectories shuffle ::
        ((List.range count).map
          (fun index => .save (shufflePath shuffle index)) ++
          ((filesOf job .reduce sideOutput 0 (partitions count learned)).map
            .save ++ [.delete shuffle,
              .mark (job.output.location.child successMark)])))

def taskChangesOf (job : Job) (graph : List (List Pair))
    (learned : List Pair) : List Step :=
  let shuffle := job.output.location.child temporaryDirectory
  let count := max job.reduceTasks 1
  (filesOf job .map graphOutput 0 graph).map .save ++
    .makeDirectories shuffle ::
      ((List.range count).map
        (fun index => .save (shufflePath shuffle index)) ++
        ((filesOf job .reduce sideOutput 0 (partitions count learned)).map
          .save ++ [.delete shuffle]))

theorem changesOf_eq (job : Job) (graph : List (List Pair))
    (learned : List Pair) :
    changesOf job graph learned = .makeDirectories job.output.location ::
      (taskChangesOf job graph learned ++
        [.mark (job.output.location.child successMark)]) := by
  simp [changesOf, taskChangesOf]

section

variable {job : Job} {here : Place} {store other after : Store}

theorem exists_writeOutput (h : SameShape here store other) {side : Side}
    {task : Nat} {output : String} {pairs : List Pair}
    (hknown : (formatFor? job output).isSome = true) {rest : List (List Pair)}
    (hsteps : Succeeds
      (performAll ((filesOf job side output task (pairs :: rest)).map .save))
      other () after) :
    ∃ left between,
      Succeeds (writeOutput job side task output pairs) store () left ∧
      SameShape here left between ∧
      Succeeds
        (performAll ((filesOf job side output (task + 1) rest).map .save))
        between () after := by
  obtain ⟨format, hformat⟩ := Option.isSome_iff_exists.1 hknown
  rw [filesOf, List.map_append, Store.succeeds_performAll_append] at hsteps
  obtain ⟨between, hfirst, hrest⟩ := hsteps
  unfold writeOutput
  by_cases hempty : pairs.isEmpty = true
  · rw [if_pos hempty] at hfirst ⊢
    obtain ⟨-, rfl⟩ := succeeds_pure_iff.1 hfirst
    exact ⟨store, _, succeeds_pure_iff.2 ⟨rfl, rfl⟩, h, hrest⟩
  · rw [if_neg hempty] at hfirst ⊢
    simp only [hformat, Option.toList_some, List.map_cons, List.map_nil]
      at hfirst ⊢
    obtain ⟨saved, hsave, hnil⟩ := Store.succeeds_performAll_cons.1 hfirst
    obtain ⟨-, rfl⟩ := succeeds_pure_iff.1 hnil
    obtain ⟨left, hwrite, hshape⟩ := h.exists_save hsave format pairs
    exact ⟨left, saved, succeeds_within_iff.2 (succeeds_ofStoreM_iff.2 hwrite),
      hshape, hrest⟩

theorem exists_writeShuffle {directory : Path} (part : Nat → List Pair)
    {first count : Nat} (h : SameShape here store other)
    (hsteps : Succeeds (performAll ((List.range' first count).map fun index =>
      .save (shufflePath directory index))) other () after) :
    ∃ paths left,
      Succeeds
        (writeShuffle directory first
          ((List.range' first count).map part)) store
      paths left ∧ SameShape here left after := by
  induction count generalizing first store other with
  | zero =>
      obtain ⟨-, rfl⟩ := succeeds_pure_iff.1 hsteps
      exact ⟨[], store, succeeds_pure_iff.2 ⟨rfl, rfl⟩, h⟩
  | succ count ih =>
      rw [List.range'_succ] at hsteps ⊢
      obtain ⟨between, hfirst, hrest⟩ := Store.succeeds_performAll_cons.1 hsteps
      obtain ⟨saved, hsave, hshape⟩ :=
        h.exists_save hfirst .intermediate (part first)
      obtain ⟨paths, left, hlater, hlast⟩ := ih hshape hrest
      refine ⟨shufflePath directory first :: paths, left, ?_, hlast⟩
      simp only [List.map_cons, writeShuffle, succeeds_bind_iff,
        succeeds_ofStoreM_iff, succeeds_pure_iff]
      exact ⟨(), saved, hsave, paths, left, hlater, rfl, rfl⟩

end

end Engine

end JobChain
