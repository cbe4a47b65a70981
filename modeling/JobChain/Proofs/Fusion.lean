import JobChain.Proofs.Fusion.Stages
import JobChain.Proofs.Words
import Mathlib.Algebra.Order.BigOperators.Group.List
import Mathlib.Algebra.Order.Group.Nat

/-!
# Fused runs and runs one after another

The stages of a job may also run one after another, each on a task of its own
and on everything that the one before has written. As long as no call fails and
no stage but the last writes twice for one call, the fused run comes to the
same: the same records in the same order, the same sums and ticks, and the same
pairs at every named output.
-/

namespace JobChain

/-! ## One stage alone -/

structure SoloRun where
  setup : StageReply
  maps : List StageReply
  cleanup : StageReply

namespace SoloRun

def replies (solo : SoloRun) : List StageReply :=
  solo.setup :: (solo.maps ++ [solo.cleanup])

def actions (solo : SoloRun) : List Action :=
  solo.replies.flatMap StageReply.actions

def task (solo : SoloRun) : Task := ({} : Task).performAll solo.actions

private theorem emitted_task (solo : SoloRun) :
    solo.task.emitted.toList = written solo.actions :=
  Task.emitted_performAll {} solo.actions

private theorem namedList_task (solo : SoloRun) (output : String) :
    solo.task.namedList output = namedPairs output solo.actions :=
  Task.namedList_performAll {} output solo.actions

private theorem get_counters_task (solo : SoloRun) (group name : String) :
    solo.task.counters.get group name = amounts group name solo.actions :=
  (Task.get_counters_performAll {} group name solo.actions).trans
    (Nat.zero_add _)

private theorem progress_task (solo : SoloRun) :
    solo.task.progress = tickCount solo.actions :=
  (Task.progress_performAll {} solo.actions).trans (Nat.zero_add _)

def wordTask (solo : SoloRun) (overflow : Overflow) : WordTask overflow :=
  Context.performAll (WordTask.start overflow) solo.actions

private theorem isSome_wordTask (solo : SoloRun) (overflow : Overflow) :
    (solo.wordTask overflow).task?.isSome ↔ solo.task.Fits overflow :=
  (WordTask.performAll_start overflow solo.actions).1

private theorem shows_wordTask {solo : SoloRun} {overflow : Overflow}
    {shown : Task} (h : (solo.wordTask overflow).task? = some shown) :
    Task.Shows overflow solo.task shown :=
  (WordTask.performAll_start overflow solo.actions).2 shown h

def Succeeds (solo : SoloRun) : Prop :=
  ∀ reply ∈ solo.replies, reply.failure? = none

/-- A stage behind which another one can run: it writes nothing when it is set
up and at most one pair in every later call. -/
structure Relays (solo : SoloRun) : Prop where
  setup : written solo.setup.actions = []
  maps : ∀ reply ∈ solo.maps, (written reply.actions).length ≤ 1
  cleanup : (written solo.cleanup.actions).length ≤ 1

end SoloRun

instance (solo : SoloRun) : Decidable solo.Succeeds :=
  inferInstanceAs (Decidable (∀ reply ∈ solo.replies, reply.failure? = none))

instance (solo : SoloRun) : Decidable solo.Relays :=
  decidable_of_iff
    (written solo.setup.actions = [] ∧
      (∀ reply ∈ solo.maps, (written reply.actions).length ≤ 1) ∧
      (written solo.cleanup.actions).length ≤ 1)
    ⟨fun ⟨hsetup, hmaps, hcleanup⟩ => ⟨hsetup, hmaps, hcleanup⟩,
      fun h => ⟨h.setup, h.maps, h.cleanup⟩⟩

def FusedStage.solo (stage : FusedStage) (pairs : List Pair) : SoloRun :=
  { setup := stage.onSetup
    maps := stage.onSetup.stage.replies pairs
    cleanup := (stage.onSetup.stage.after pairs).onCleanup }

def FusedRun.oneByOne : FusedRun → List Pair → List SoloRun
  | [], _ => []
  | stage :: rest, pairs =>
      stage.solo pairs :: oneByOne rest (stage.solo pairs).task.emitted.toList

namespace FusedRun

/-! ## Runs one after another -/

def jointActions : List SoloRun → List Action
  | [] => []
  | solo :: rest =>
      if rest.isEmpty then solo.actions else aside solo.actions ++
        jointActions rest

private theorem actions_solo (stage : FusedStage) (pairs : List Pair) :
    (stage.solo pairs).actions = stage.onSetup.actions ++
    stage.onSetup.stage.work pairs := by
  simp [SoloRun.actions, SoloRun.replies, FusedStage.solo, FusedStage.work]

private theorem emitted_solo {stage : FusedStage}
    (h : written stage.onSetup.actions = []) (pairs : List Pair) :
    (stage.solo pairs).task.emitted.toList =
      written (stage.onSetup.stage.work pairs) := by
  rw [SoloRun.emitted_task, actions_solo, written_append, h, List.nil_append]

private theorem oneByOne_ne_nil {run : FusedRun} (h : run ≠ [])
    (pairs : List Pair) : oneByOne run pairs ≠ [] := by
  cases run with
  | nil => exact absurd rfl h
  | cons stage rest => simp [oneByOne]

private theorem smooth_ready {run : FusedRun} {pairs : List Pair}
    (hsucceeds : ∀ solo ∈ oneByOne run pairs, solo.Succeeds)
    (hrelays : ∀ solo ∈ (oneByOne run pairs).dropLast, solo.Relays) :
    Smooth (ready run) pairs := by
  induction run generalizing pairs with
  | nil => trivial
  | cons stage rest ih =>
      have hself : (stage.solo pairs).Succeeds :=
        hsucceeds _ (by simp [oneByOne])
      have hmaps : ∀ reply ∈ stage.onSetup.stage.replies pairs,
          reply.failure? = none :=
        fun reply hreply =>
          hself reply (by simp [SoloRun.replies, FusedStage.solo, hreply])
      have hcleanup :
          (stage.onSetup.stage.after pairs).onCleanup.failure? = none :=
        hself _ (by simp [SoloRun.replies, FusedStage.solo])
      by_cases hne : rest = []
      · subst hne
        exact ⟨hmaps, hcleanup, fun hne => absurd rfl hne, trivial⟩
      · have hcons : (oneByOne (stage :: rest) pairs).dropLast =
            stage.solo pairs ::
            (oneByOne rest (stage.solo pairs).task.emitted.toList).dropLast :=
          List.dropLast_cons_of_ne_nil (oneByOne_ne_nil hne _)
        rw [hcons] at hrelays
        have hrelay : (stage.solo pairs).Relays := hrelays _ List.mem_cons_self
        refine ⟨hmaps, hcleanup, fun _ => ⟨hrelay.maps, hrelay.cleanup⟩, ?_⟩
        rw [← emitted_solo hrelay.setup]
        exact ih
          (fun solo hsolo => hsucceeds solo (List.mem_cons_of_mem _ hsolo))
          fun solo hsolo => hrelays solo (List.mem_cons_of_mem _ hsolo)

/-- The work of the fused stages, with their set up before it, is that of the
runs one after another. -/
theorem alike_jointActions {run : FusedRun} {pairs : List Pair}
    (hrelays : ∀ solo ∈ (oneByOne run pairs).dropLast, solo.Relays) :
    Alike ((run.flatMap fun stage => stage.onSetup.actions) ++
      jointWork (ready run) pairs) (jointActions (oneByOne run pairs)) := by
  induction run generalizing pairs with
  | nil => exact .refl _
  | cons stage rest ih =>
      by_cases hne : rest = []
      · subst hne
        simp [ready, jointWork, oneByOne, jointActions, actions_solo,
          Alike.refl]
      · have hcons : (oneByOne (stage :: rest) pairs).dropLast =
            stage.solo pairs ::
            (oneByOne rest (stage.solo pairs).task.emitted.toList).dropLast :=
          List.dropLast_cons_of_ne_nil (oneByOne_ne_nil hne _)
        rw [hcons] at hrelays
        have hrelay : (stage.solo pairs).Relays := hrelays _ List.mem_cons_self
        have hrest :=
          ih fun solo hsolo => hrelays solo (List.mem_cons_of_mem _ hsolo)
        have hready : (ready rest).isEmpty = false := by
          cases rest with
          | nil => exact absurd rfl hne
          | cons next others => rfl
        have hsolos :
            (oneByOne rest (stage.solo pairs).task.emitted.toList).isEmpty =
              false := by
          simpa using oneByOne_ne_nil hne _
        have hsetup : aside stage.onSetup.actions = stage.onSetup.actions :=
          aside_eq_self_of_written_eq_nil hrelay.setup
        simp only [ready, jointWork, hready, oneByOne, jointActions, hsolos,
          actions_solo, aside_append, hsetup, List.flatMap_cons,
          Bool.false_eq_true, if_false]
        rw [← emitted_solo hrelay.setup]
        generalize hjoint :
          jointWork (ready rest) (stage.solo pairs).task.emitted.toList =
            joint at *
        generalize (rest.flatMap fun stage => stage.onSetup.actions) =
          setups at *
        have hswap : Alike (setups ++ aside (stage.onSetup.stage.work pairs))
            (aside (stage.onSetup.stage.work pairs) ++ setups) :=
          .swap (written_aside _)
        have hlater :
            Alike (setups ++ aside (stage.onSetup.stage.work pairs) ++ joint)
              (aside (stage.onSetup.stage.work pairs) ++
              jointActions
                (oneByOne rest (stage.solo pairs).task.emitted.toList)) := by
          refine (hswap.append (.refl joint)).trans ?_
          simpa using (Alike.refl
            (aside (stage.onSetup.stage.work pairs))).append hrest
        simpa using (Alike.refl stage.onSetup.actions).append hlater

section JointActions

variable (solos : List SoloRun)

private theorem written_jointActions {last : SoloRun}
    (h : solos.getLast? = some last) :
    written (jointActions solos) = last.task.emitted.toList := by
  induction solos with
  | nil => simp at h
  | cons solo rest ih =>
      cases rest with
      | nil =>
          obtain rfl : solo = last := by simpa using h
          exact (SoloRun.emitted_task solo).symm
      | cons next others =>
          rw [List.getLast?_cons_cons] at h
          rw [jointActions, List.isEmpty_cons, if_neg Bool.false_ne_true,
            written_append, written_aside, ih h, List.nil_append]

private theorem sum_jointActions {count : List Action → Nat}
    (hnil : count [] = 0)
    (happend : ∀ first second, count (first ++ second) = count first +
      count second)
    (haside : ∀ actions, count (aside actions) = count actions) :
    count (jointActions solos) =
      (solos.map fun solo => count solo.actions).sum := by
  induction solos with
  | nil => simpa [jointActions] using hnil
  | cons solo rest ih =>
      cases rest with
      | nil => simp [jointActions]
      | cons next others => simpa [jointActions, happend, haside] using ih

private theorem namedPairs_jointActions (output : String) :
    namedPairs output (jointActions solos) =
      solos.flatMap fun solo => solo.task.namedList output := by
  induction solos with
  | nil => rfl
  | cons solo rest ih =>
      cases rest with
      | nil => simp [jointActions, SoloRun.namedList_task]
      | cons next others =>
          rw [jointActions, List.isEmpty_cons, if_neg Bool.false_ne_true,
            namedPairs_append, namedPairs_aside, ih, ← SoloRun.namedList_task]
          rfl

end JointActions

private theorem setups_oneByOne (run : FusedRun) (pairs : List Pair) :
    (oneByOne run pairs).map SoloRun.setup =
      List.map FusedStage.onSetup run := by
  induction run generalizing pairs with
  | nil => rfl
  | cons stage rest ih => simp [oneByOne, ih, FusedStage.solo]

private theorem setup_eq_ready {τ : Type} [Context τ] {run : FusedRun}
    {pairs : List Pair} (hsucceeds : ∀ solo ∈ oneByOne run pairs, solo.Succeeds)
    (hrelays : ∀ solo ∈ (oneByOne run pairs).dropLast, solo.Relays) (task : τ) :
    run.setup task =
      (none, ready run,
        Context.performAll task (run.flatMap fun stage =>
          stage.onSetup.actions)) := by
  have hsetups := setups_oneByOne run pairs
  refine setupFrom_eq (fun stage hstage => ?_) (fun stage hstage => ?_) 0 task
  · have hmem : stage.onSetup ∈ (oneByOne run pairs).map SoloRun.setup :=
      hsetups ▸ List.mem_map_of_mem hstage
    obtain ⟨solo, hsolo, heq⟩ := List.mem_map.1 hmem
    exact heq ▸ hsucceeds solo hsolo solo.setup (by simp [SoloRun.replies])
  · have hmem :
        stage.onSetup ∈ (oneByOne run pairs).dropLast.map SoloRun.setup := by
      rw [List.map_dropLast, hsetups, ← List.map_dropLast]
      exact List.mem_map_of_mem hstage
    obtain ⟨solo, hsolo, heq⟩ := List.mem_map.1 hmem
    exact heq ▸ (hrelays solo hsolo).setup

theorem exists_runAll {run : FusedRun} (hne : run ≠ []) {pairs : List Pair}
    (hsucceeds : ∀ solo ∈ oneByOne run pairs, solo.Succeeds)
    (hrelays : ∀ solo ∈ (oneByOne run pairs).dropLast, solo.Relays) :
    ∃ actions,
      (∀ {τ : Type} [Context τ] (task : τ), ∃ prepared fed tired,
        run.setup task = (none, ready run, prepared) ∧
        (ready run).mapAll pairs prepared = (none, tired, fed) ∧
        tired.cleanup fed = (none, ends (ready run) pairs,
          Context.performAll task actions)) ∧
      Alike actions (jointActions (oneByOne run pairs) ++
        List.replicate pairs.length .progress) := by
  have hsmooth := smooth_ready hsucceeds hrelays
  have hsetup {τ : Type} [Context τ] (task : τ) :=
    setup_eq_ready hsucceeds hrelays task
  have hjoint := alike_jointActions hrelays
  generalize (run.flatMap fun stage => stage.onSetup.actions) = setups
    at hsetup hjoint
  obtain ⟨stage, rest, hready⟩ : ∃ stage rest, ready run = stage :: rest := by
    cases run with
    | nil => exact absurd rfl hne
    | cons stage rest => exact ⟨_, _, rfl⟩
  obtain ⟨mapped, hmapAll, hmapped⟩ :=
    mapAll_eq_passAll (by simp [hready]) hsmooth.passesAll
  rw [hready] at hsmooth
  obtain ⟨closed, hcleanup, hclosed⟩ := cleanupFrom_passAll hsmooth 0
  rw [← hready] at hcleanup hclosed
  refine ⟨setups ++ mapped ++ closed,
    fun task => ⟨_, _, _, hsetup task, hmapAll _, ?_⟩, ?_⟩
  · rw [cleanup, length_passAll, hready, List.length_cons, ← hready, hcleanup,
      Context.performAll_append, Context.performAll_append]
  · have hticks : Alike (List.replicate pairs.length .progress ++ closed)
        (closed ++ List.replicate pairs.length .progress) :=
      ⟨by simp, List.perm_append_comm⟩
    have hmaps : Alike (mapped ++ closed)
        (jointWork (ready run) pairs ++
          List.replicate pairs.length .progress) := by
      refine (hmapped.append (.refl closed)).trans ?_
      have hlater := (Alike.refl (passAll (ready run) pairs).2).append hticks
      refine Alike.trans (by simpa using hlater) ?_
      simpa using hclosed.append (.refl (List.replicate pairs.length .progress))
    have hall := (Alike.refl setups).append hmaps
    refine Alike.trans (by simpa using hall) ?_
    simpa using hjoint.append (.refl (List.replicate pairs.length .progress))

private theorem ends_ready {run : FusedRun} {pairs : List Pair}
    (hrelays : ∀ solo ∈ (oneByOne run pairs).dropLast, solo.Relays) :
    ends (ready run) pairs = (oneByOne run pairs).map fun solo =>
      solo.cleanup.stage := by
  induction run generalizing pairs with
  | nil => rfl
  | cons stage rest ih =>
      by_cases hne : rest = []
      · subst hne
        rfl
      · have hcons : (oneByOne (stage :: rest) pairs).dropLast =
            stage.solo pairs ::
            (oneByOne rest (stage.solo pairs).task.emitted.toList).dropLast :=
          List.dropLast_cons_of_ne_nil (oneByOne_ne_nil hne _)
        rw [hcons, List.forall_mem_cons] at hrelays
        simp only [ready, ends, oneByOne, List.map_cons,
          ← emitted_solo hrelays.1.setup, ih hrelays.2]
        rfl

def totalIn (overflow : Overflow) (solos : List SoloRun)
    (sum : Task → Nat) : Option Nat :=
  overflow.total? (solos.map fun solo => (solo.wordTask overflow).task?.map sum)

/-- What a task holds that has done the work of some runs one after another, in
words, and ticked for each of some records. -/
structure Gathers (overflow : Overflow) (solos : List SoloRun) (last : SoloRun)
    (records : Nat) (task : Task) : Prop where
  emitted : task.emitted = last.task.emitted
  counters : ∀ group name,
    totalIn overflow solos (fun solo => solo.counters.get group name) =
    some (task.counters.get group name)
  progress :
    (totalIn overflow solos Task.progress).bind (overflow.add? · records) =
    some task.progress
  named : ∀ output,
      (task.namedList output).Perm (solos.flatMap fun solo =>
        solo.task.namedList output)

/-- All totals of some runs one after another are there, and with them the last
tick. -/
structure Adds (overflow : Overflow) (solos : List SoloRun)
    (records : Nat) : Prop where
  counters : ∀ group name,
    (totalIn overflow solos fun solo => solo.counters.get group name).isSome
  progress :
      ((totalIn overflow solos Task.progress).bind
        (overflow.add? · records)).isSome

section Totals

variable {overflow : Overflow} {solos : List SoloRun} {sum : Task → Nat}

private theorem fits_of_totalIn (h : (totalIn overflow solos sum).isSome) :
    ∀ solo ∈ solos, solo.task.Fits overflow := by
  intro solo hsolo
  rw [← solo.isSome_wordTask]
  cases htask : (solo.wordTask overflow).task? with
  | some _ => rfl
  | none =>
      have hnone : none ∈ solos.map fun solo =>
          (solo.wordTask overflow).task?.map sum :=
        List.mem_map.2 ⟨solo, hsolo, by rw [htask]; rfl⟩
      rw [totalIn, Overflow.total?_of_none hnone] at h
      cases h

private theorem totalIn_eq
    (hsum : ∀ {task shown : Task}, Task.Shows overflow task shown →
      overflow.word? (sum task) = some (sum shown))
    (hfits : ∀ solo ∈ solos, solo.task.Fits overflow) :
    totalIn overflow solos sum =
      overflow.word? (solos.map fun solo => sum solo.task).sum := by
  have hwords : (solos.map fun solo => (solo.wordTask overflow).task?.map sum) =
      (solos.map fun solo => sum solo.task).map overflow.word? := by
    rw [List.map_map]
    refine List.map_congr_left fun solo hsolo => ?_
    obtain ⟨shown, hshown⟩ :=
      Option.isSome_iff_exists.1
        ((solo.isSome_wordTask overflow).2 (hfits solo hsolo))
    rw [hshown, Option.map_some]
    exact (hsum (SoloRun.shows_wordTask hshown)).symm
  rw [totalIn, hwords, Overflow.total?_word?]

private theorem totalIn_counters (group name : String)
    (hfits : ∀ solo ∈ solos, solo.task.Fits overflow) :
    totalIn overflow solos (fun task => task.counters.get group name) =
      overflow.word? (solos.map fun solo =>
        solo.task.counters.get group name).sum :=
  totalIn_eq (fun h => h.counters group name) hfits

private theorem totalIn_progress (records : Nat)
    (hfits : ∀ solo ∈ solos, solo.task.Fits overflow) :
    (totalIn overflow solos Task.progress).bind (overflow.add? · records) =
      overflow.word? ((solos.map fun solo => solo.task.progress).sum +
        records) := by
  rw [totalIn_eq Task.Shows.progress hfits, Overflow.add?_word?]

end Totals

/-- What a task without bounds holds after some runs, for a fused run to show it
in words. -/
structure Holds (solos : List SoloRun) (last : SoloRun) (records : Nat)
    (task : Task) : Prop where
  emitted : task.emitted = last.task.emitted
  counters : ∀ group name,
    task.counters.get group name =
      (solos.map fun solo => solo.task.counters.get group name).sum
  progress :
      task.progress = (solos.map fun solo => solo.task.progress).sum + records
  named : ∀ output,
      (task.namedList output).Perm (solos.flatMap fun solo =>
        solo.task.namedList output)

namespace Holds

variable {solos : List SoloRun} {last : SoloRun} {records : Nat} {task : Task}
  {overflow : Overflow} (h : Holds solos last records task)

include h

private theorem solo_fits (hfits : task.Fits overflow) :
    ∀ solo ∈ solos, solo.task.Fits overflow := by
  intro solo hsolo
  constructor
  · intro group name
    refine overflow.word?_isSome_of_le ?_ (hfits.counters group name)
    rw [h.counters]
    exact List.single_le_sum
      (fun _ _ => Nat.zero_le _) _ (List.mem_map_of_mem hsolo)
  · refine overflow.word?_isSome_of_le ?_ hfits.progress
    rw [h.progress]
    have hle :
        solo.task.progress ≤ (solos.map fun solo => solo.task.progress).sum :=
      List.single_le_sum
        (fun _ _ => Nat.zero_le _) _ (List.mem_map_of_mem hsolo)
    omega

private theorem fits_iff :
    task.Fits overflow ↔ Adds overflow solos records := by
  constructor
  · intro hfits
    have hsolos := h.solo_fits hfits
    constructor
    · intro group name
      rw [totalIn_counters group name hsolos, ← h.counters]
      exact hfits.counters group name
    · rw [totalIn_progress records hsolos, ← h.progress]
      exact hfits.progress
  · intro hadds
    have hsolos := fits_of_totalIn (hadds.counters "" "")
    constructor
    · intro group name
      rw [h.counters, ← totalIn_counters group name hsolos]
      exact hadds.counters group name
    · rw [h.progress, ← totalIn_progress records hsolos]
      exact hadds.progress

private theorem gathers {shown : Task}
    (hshows : Task.Shows overflow task shown) :
    Gathers overflow solos last records shown := by
  have hsolos := h.solo_fits hshows.fits
  constructor
  · exact hshows.emitted.trans h.emitted
  · intro group name
    rw [totalIn_counters group name hsolos, ← h.counters]
    exact hshows.counters group name
  · rw [totalIn_progress records hsolos, ← h.progress]
    exact hshows.progress
  · intro output
    rw [Task.namedList, hshows.named]
    exact h.named output

end Holds

private theorem holds_of_alike {solos : List SoloRun} {last : SoloRun}
    (hlast : solos.getLast? = some last) {actions : List Action} {records : Nat}
    (h : Alike actions
      (jointActions solos ++ List.replicate records .progress)) :
    Holds solos last records (({} : Task).performAll actions) := by
  refine {
    emitted := ?_
    counters := fun group name => ?_
    progress := ?_
    named := fun output => ?_ }
  · apply Array.ext'
    rw [Task.emitted_performAll, h.1, written_append,
      written_replicate_progress, List.append_nil, written_jointActions _ hlast]
    rfl
  · rw [Task.get_counters_performAll, h.amounts_eq, amounts_append,
      amounts_replicate_progress,
      sum_jointActions _ rfl (amounts_append group name)
        (amounts_aside group name)]
    simp only [SoloRun.get_counters_task]
    exact Nat.zero_add _
  · rw [Task.progress_performAll, h.tickCount_eq, tickCount_append,
      tickCount_replicate_progress,
      sum_jointActions _ rfl tickCount_append tickCount_aside]
    simp only [SoloRun.progress_task]
    exact Nat.zero_add _
  · have hperm := h.namedPairs_perm output
    rw [namedPairs_append, namedPairs_replicate_progress, List.append_nil,
      namedPairs_jointActions] at hperm
    rwa [Task.namedList_performAll]

def everyOther : MapFunction where
  State := Nat
  start := 0
  map _ seen pair :=
    { actions := if seen % 2 = 0 then [.write pair] else [.count "sample" "SKIPPED" 1]
      state := seen + 1 }
  cleanup _ seen := .write seen ⟨.null, .ofNat seen⟩

def doubled : MapFunction where
  State := Unit
  start := ()
  map _ _ pair :=
    { actions := [.write pair, .progress, .writeNamed "sample" pair,
      .write pair], state := () }

end FusedRun

end JobChain
