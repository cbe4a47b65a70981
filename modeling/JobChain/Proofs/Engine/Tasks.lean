import JobChain.Proofs.Fusion
import JobChain.Reduction

/-!
# What tasks are asked for

A task that ends well is what all the calls of its functions have asked for, one
behind another. Only the records that a stage of a fused run hands to the one
behind it are not asked of the task.
-/

namespace JobChain

/-! ## Map tasks -/

namespace FusedRun

def outward (rest : FusedRun) (actions : List Action) : List Action :=
  if rest.isEmpty then actions else aside actions

def setupActions : FusedRun → List Action
  | [] => []
  | stage :: rest => outward rest stage.onSetup.actions ++ setupActions rest

/-- The stages as records leave them, and what is asked for, with a tick for
each record. -/
def feed : FusedRun → List Pair → FusedRun × List Action
  | run, [] => (run, [])
  | run, pair :: rest =>
      ((feed (run.pass pair).1 rest).1,
        (run.pass pair).2 ++ .progress :: (feed (run.pass pair).1 rest).2)

def closeActions : Nat → FusedRun → List Action
  | 0, _ => []
  | _, [] => []
  | count + 1, stage :: rest =>
      let passed := if rest.isEmpty then
        ([], []) else passAll rest (written stage.onCleanup.actions)
      outward rest stage.onCleanup.actions ++
        (passed.2 ++ closeActions count passed.1)

def asked (run : FusedRun) (pairs : List Pair) : List Action :=
  let fed := run.ready.feed pairs
  run.setupActions ++ (fed.2 ++ closeActions fed.1.length fed.1)

private theorem task_performAll_relayFor (stage : FusedStage) (rest : FusedRun)
    (task : Task) (actions : List Action) :
    ((relayFor stage rest task).performAll actions).task =
      task.performAll (outward rest actions) := by
  cases hrest : rest.isEmpty with
  | true => simp [relayFor, outward, hrest, Relay.performAll_of_terminal]
  | false => simp [relayFor, outward, hrest, Relay.performAll_of_not_terminal]

private theorem setupFrom_eq_none {step : Nat} {run after : FusedRun}
    {task task' : Task} (h : setupFrom step run task = (none, after, task')) :
    after = run.ready ∧ task' = task.performAll run.setupActions := by
  induction run generalizing step after task task' with
  | nil =>
      obtain ⟨-, h⟩ := Prod.mk.inj h
      obtain ⟨rfl, rfl⟩ := Prod.mk.inj h
      exact ⟨rfl, rfl⟩
  | cons stage rest ih =>
      rw [setupFrom, FusedStage.setup_eq stage rfl] at h
      cases hfailure : stage.onSetup.failure? with
      | some failure => simp [hfailure] at h
      | none =>
          simp only [hfailure, task_performAll_relayFor] at h
          obtain ⟨herror, h⟩ := Prod.mk.inj h
          obtain ⟨rfl, rfl⟩ := Prod.mk.inj h
          obtain ⟨hafter, htask⟩ := ih (Prod.ext herror rfl)
          rw [hafter, htask, setupActions, Task.performAll_append]
          exact ⟨rfl, rfl⟩

private theorem passes_of_pump {step : Nat} {run after : FusedRun}
    {relay relay' : Relay Task} {pair : Pair} (hslot : relay.slot = some pair)
    (h : pump step run relay = (none, after, relay')) : Passes run pair := by
  induction run generalizing step after relay relay' pair with
  | nil => trivial
  | cons stage rest ih =>
      simp only [pump, Relay.consume, hslot, Relay.enter,
        FusedStage.map_eq] at h
      cases hfailure : (stage.onMap pair).failure? with
      | some failure => simp [hfailure] at h
      | none =>
          refine ⟨hfailure, fun hne => ?_⟩
          have hempty : rest.isEmpty = false := by simpa using hne
          simp only [hfailure, hempty, Relay.performAll_of_not_terminal,
            Nat.zero_add] at h
          split_ifs at h with hmany
          · simp at h
          refine ⟨Nat.not_lt.1 hmany, fun next hnext => ?_⟩
          obtain ⟨herror, -⟩ := Prod.mk.inj h
          have hlast : (written (stage.onMap pair).actions).getLast? =
              some next := by
            cases hwritten : written (stage.onMap pair).actions with
            | nil => simp [hwritten] at hnext
            | cons only others =>
                obtain rfl : others = [] := by simpa [hwritten] using hmany
                obtain rfl : next = only := by simpa [hwritten] using hnext
                rfl
          exact ih (by rw [hlast]; rfl) (Prod.ext herror rfl)

private theorem map_eq_none {run after : FusedRun} {pair : Pair}
    {task task' : Task} (h : run.map pair task = (none, after, task')) :
    after = (run.pass pair).1 ∧ task' = task.performAll (run.pass pair).2 := by
  cases run with
  | nil =>
      obtain ⟨-, h⟩ := Prod.mk.inj h
      obtain ⟨rfl, rfl⟩ := Prod.mk.inj h
      exact ⟨rfl, rfl⟩
  | cons stage rest =>
      have hpasses : Passes (stage :: rest) pair := by
        rcases hpump : pump 0 (stage :: rest)
            (Relay.emit { options := stage.options, task } pair)
          with ⟨_ | error, passed, relay⟩
        · exact passes_of_pump rfl hpump
        · simp [map, hpump] at h
      rw [map_eq_pass (by simp) hpasses] at h
      obtain ⟨-, h⟩ := Prod.mk.inj h
      obtain ⟨rfl, rfl⟩ := Prod.mk.inj h
      exact ⟨rfl, rfl⟩

private theorem mapAll_eq_none {run after : FusedRun} {pairs : List Pair}
    {task task' : Task} (h : run.mapAll pairs task = (none, after, task')) :
    after = (run.feed pairs).1 ∧
    task' = task.performAll (run.feed pairs).2 := by
  induction pairs generalizing run after task task' with
  | nil =>
      obtain ⟨-, h⟩ := Prod.mk.inj h
      obtain ⟨rfl, rfl⟩ := Prod.mk.inj h
      exact ⟨rfl, rfl⟩
  | cons pair rest ih =>
      rw [mapAll] at h
      rcases hmap : run.map pair task with ⟨_ | error, passed, between⟩
      · rw [hmap] at h
        obtain ⟨rfl, rfl⟩ := map_eq_none hmap
        obtain ⟨hafter, htask⟩ := ih h
        rw [hafter, htask, feed, Task.performAll_append]
        exact ⟨rfl, rfl⟩
      · simp [hmap] at h

/-- A stage that is closed without an error writes at most once, and what it
writes has passed. -/
theorem passes_of_cleanupFrom {count step : Nat} {stage : FusedStage}
    {rest after : FusedRun} {task task' : Task} (hne : rest ≠ [])
    (hfailure : stage.onCleanup.failure? = none)
    (h : cleanupFrom (count + 1) step (stage :: rest) task =
      (none, after, task')) :
    (written stage.onCleanup.actions).length ≤ 1 ∧
      PassesAll rest (written stage.onCleanup.actions) := by
  have hempty : rest.isEmpty = false := by simpa using hne
  simp only [cleanupFrom, relayFor, FusedStage.cleanup_eq, hfailure, hempty,
    Relay.performAll_of_not_terminal, Nat.zero_add] at h
  split_ifs at h with hmany
  · simp at h
  have hone := Nat.not_lt.1 hmany
  refine ⟨hone, ?_⟩
  cases hwritten : written stage.onCleanup.actions with
  | nil => trivial
  | cons next others =>
      obtain rfl : others = [] := by simpa [hwritten] using hone
      refine ⟨?_, trivial⟩
      simp only [hwritten] at h
      split at h
      · simp at h
      · rename_i hpump
        exact passes_of_pump rfl hpump

private theorem cleanupFrom_eq_none {count step : Nat} {run after : FusedRun}
    {task task' : Task}
    (h : cleanupFrom count step run task = (none, after, task')) :
    task' = task.performAll (closeActions count run) := by
  induction count generalizing step run after task task' with
  | zero =>
      obtain ⟨-, h⟩ := Prod.mk.inj h
      obtain ⟨-, rfl⟩ := Prod.mk.inj h
      rfl
  | succ count ih =>
      cases run with
      | nil =>
          obtain ⟨-, h⟩ := Prod.mk.inj h
          obtain ⟨-, rfl⟩ := Prod.mk.inj h
          rfl
      | cons stage rest =>
          cases hfailure : stage.onCleanup.failure? with
          | some failure =>
              rw [cleanupFrom, FusedStage.cleanup_eq stage rfl] at h
              simp [hfailure] at h
          | none =>
              by_cases hne : rest = []
              · subst hne
                rw [cleanupFrom_singleton hfailure] at h
                obtain ⟨-, h⟩ := Prod.mk.inj h
                obtain ⟨-, rfl⟩ := Prod.mk.inj h
                cases count <;> simp [closeActions, outward]
              · obtain ⟨hone, hpasses⟩ := passes_of_cleanupFrom hne hfailure h
                rw [cleanupFrom_cons hne hfailure hone hpasses] at h
                obtain ⟨herror, h⟩ := Prod.mk.inj h
                obtain ⟨-, rfl⟩ := Prod.mk.inj h
                have hempty : rest.isEmpty = false := by simpa using hne
                rw [ih (Prod.ext herror rfl)]
                simp [closeActions, outward, hempty, Task.performAll_append]

theorem runAll_eq_ok {run : FusedRun} {pairs : List Pair} {task task' : Task}
    (h : run.runAll pairs task = .ok task') :
    task' = task.performAll (run.asked pairs) := by
  unfold runAll at h
  rcases hsetup : run.setup task with ⟨_ | error, readied, task₁⟩
  · rcases hmaps : mapAll readied pairs task₁ with ⟨_ | error, fed, task₂⟩
    · rcases hcleanup : cleanup fed task₂ with ⟨_ | error, closed, task₃⟩
      · simp only [hsetup, hmaps, hcleanup, Except.ok.injEq] at h
        subst h
        obtain ⟨rfl, rfl⟩ := setupFrom_eq_none hsetup
        obtain ⟨rfl, rfl⟩ := mapAll_eq_none hmaps
        rw [cleanupFrom_eq_none hcleanup, asked, Task.performAll_append,
          Task.performAll_append]
      · simp [hsetup, hmaps, hcleanup] at h
    · simp [hsetup, hmaps] at h
  · simp [hsetup] at h

end FusedRun

/-! ## Reduce tasks -/

namespace ReduceFunction

def feed (function : ReduceFunction) (options : Options) :
    List Group → function.State → function.State × List Action
  | [], state => (state, [])
  | group :: rest, state =>
      let reply := function.reduce options state group.key group.values
      ((feed function options rest reply.state).1,
        reply.actions ++ .progress ::
        (feed function options rest reply.state).2)

def asked (function : ReduceFunction) (options : Options)
    (groups : List Group) : List Action :=
  let first := function.setup options function.start
  let fed := function.feed options groups first.state
  first.actions ++ (fed.2 ++ (function.cleanup options fed.1).actions)

variable {function : ReduceFunction} {options : Options} {groups : List Group}

private theorem reduceAll_eq_ok {state state' : function.State}
    {task task' : Task}
    (h : function.reduceAll options groups state task = .ok (state', task')) :
    state' = (function.feed options groups state).1 ∧
      task' = task.performAll (function.feed options groups state).2 := by
  induction groups generalizing state task with
  | nil =>
      obtain ⟨rfl, rfl⟩ := Prod.mk.inj (Except.ok.inj h)
      exact ⟨rfl, rfl⟩
  | cons group rest ih =>
      rw [reduceAll] at h
      split at h
      · cases h
      · obtain ⟨hstate, htask⟩ := ih h
        rw [hstate, htask, feed, Task.performAll_append]
        exact ⟨rfl, rfl⟩

theorem run_eq_ok {task task' : Task}
    (h : function.run options groups task = .ok task') :
    task' = task.performAll (function.asked options groups) := by
  simp only [run] at h
  split at h
  · cases h
  split at h
  · cases h
  rename_i hreduce
  obtain ⟨rfl, rfl⟩ := reduceAll_eq_ok hreduce
  split at h
  · cases h
  · rw [← Except.ok.inj h, asked, Task.performAll_append,
      Task.performAll_append]

theorem run_of_steady
    (hsetup : ∀ state, (function.setup options state).failure? = none)
    (hreduce : ∀ state key values,
      (function.reduce options state key values).failure? = none)
    (hcleanup : ∀ state, (function.cleanup options state).failure? = none)
    (task : Task) :
    function.run options groups task =
      .ok (task.performAll (function.asked options groups)) := by
  have hall : ∀ groups state task,
      function.reduceAll options groups state task =
      .ok ((function.feed options groups state).1,
        task.performAll (function.feed options groups state).2) := by
    intro groups
    induction groups with
    | nil => exact fun _ _ => rfl
    | cons group rest ih =>
        intro state task
        simp only [reduceAll, hreduce, ih, feed, Task.performAll_append,
          Task.performAll_cons]
  simp only [run, hsetup, hall, hcleanup, asked, Task.performAll_append]

end ReduceFunction

end JobChain
