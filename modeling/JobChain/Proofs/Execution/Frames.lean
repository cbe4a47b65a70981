import JobChain.Proofs.Execution.Abreast
import JobChain.Proofs.Execution.Trails

/-!
# What runs leave as it is

A run goes abreast with itself, so that it changes nothing outside of the part
of a store that holds what its jobs change: while the jobs of a chain run,
nothing changes but what lies strictly below the output.
-/

namespace JobChain

open Execution Store

variable {σ : Type} {around : Surroundings σ} {place : HasStore σ}
  {registry : Registry}

theorem Surroundings.IsOnStore.isFoundIn (h : around.IsOnStore place)
    {holds : σ → Prop}
    (hholds : ∀ state, holds state → IsTree (place.store state))
    {jobs : List Job} (hjobs : ∀ job ∈ jobs, job.output.location.text ≠ "")
    {path : Path} (hfinds : around.Finds holds jobs path) :
    ∃ job ∈ jobs, ∃ name, IsFoundIn job.output.location name path := by
  obtain ⟨job, hjob, pattern, hpattern, state, paths, hstate, hpaths, hpath⟩ :=
    hfinds
  obtain ⟨front, hfront, rfl⟩ := List.mem_map.1 hpattern
  have hlisting :
      ((around.list (Glob.patternIn job.output.location (front ++ "*"))).run
        state).1 =
      (place.store state).listing
        (Glob.patternIn job.output.location (front ++ "*")) :=
    (h.run_list (Prod.eta _).symm).1
  rw [hpaths] at hlisting
  obtain ⟨name, -, hfound⟩ :=
    of_mem_listing (hholds state hstate) (hjobs job hjob)
      (Job.isFront_of_mem_fronts hfront) hlisting.symm hpath
  exact ⟨job, hjob, name, hfound⟩

/-- The surroundings of a run change nothing outside of the part that holds what
its jobs change, and its output as long as it works on that. -/
theorem Surroundings.IsLocal.keeps (h : around.IsLocal place registry)
    {scope : Scope} {jobs : List Job} {output? : Option Path}
    (hjobs : ∀ job ∈ jobs, scope.Houses job)
    (houtput : ∀ output, output? = some output → scope.Covers output ∧
      scope.Holds output) :
    around.Keeps
      (fun state => SameIn scope (place.store state) (place.store state)) jobs
      output? := by
  have hstore := h.toIsOnStore
  rintro ⟨before, deed, after⟩ hof hdue hbefore
  change SameIn scope (place.store before) (place.store before) at hbefore
  change SameIn scope (place.store after) (place.store after)
  cases deed with
  | asked path there =>
      have habreast := (hstore.abreast_isThere hbefore (houtput path hdue).1).2
      rwa [show around.isThere path before = (there, after) from hof]
        at habreast
  | made path result =>
      have habreast :=
        (hstore.abreast_makeDirectories hbefore (.inr (houtput path hdue).1)).2
      rwa [show (around.makeDirectories path).run before =
        (result, after) from hof] at habreast
  | deleted path result =>
      have hpath : scope.Covers path ∧ scope.Holds path := by
        rcases hdue with hpath | hfinds
        · exact houtput path hpath
        · obtain ⟨job, hjob, name, hfound⟩ := hstore.isFoundIn
            (fun _ hsame => hsame.isTree)
            (fun job hjob => (hjobs job hjob).ne_empty) hfinds
          exact (hjobs job hjob).of_isFoundIn hfound
      have habreast := (hstore.abreast_delete hbefore hpath.1 hpath.2).2
      rwa [show (around.delete path).run before = (result, after) from hof]
        at habreast
  | listed pattern result =>
      rw [(hstore.run_list hof).2]
      exact hbefore
  | ran job answer =>
      have hkeeps := h.keeps_runJob (hjobs job hdue) hbefore
      rwa [show (around.runJob job).run before = (answer, after) from hof]
        at hkeeps
  | published job result =>
      obtain ⟨time, hleaves⟩ := hstore.publish_leaves job before
      have hleave :=
        Manifest.leave_twins (hjobs job hdue.1) hdue.2 hbefore time time
      rw [← hleaves, show (around.publish job).run before =
        (result, after) from hof] at hleave
      exact hleave.self
  | observed run =>
      rw [hstore.run_observe hof]
      exact hbefore
  | told line =>
      rw [hstore.run_tell hof]
      exact hbefore
  | clocked time =>
      rw [hstore.run_now hof]
      exact hbefore

private theorem runFrom_keeps (h : around.IsLocal place registry)
    {scope : Scope} {jobs : List Job} (hjobs : ∀ job ∈ jobs, scope.Houses job)
    (total index : Nat) {state : σ}
    (hsame : SameIn scope (place.store state) (place.store state)) :
    SameIn scope (place.store (runFrom around total index none jobs state).2)
      (place.store (runFrom around total index none jobs state).2) := by
  have hkeeps := @Surroundings.IsLocal.keeps _ _ _ _ h _ _ none hjobs (by simp)
  have hnone : ∀ previous, none = some previous → previous ∈ jobs := by simp
  obtain ⟨events, -, htrail⟩ :=
    recorded_runFrom_trail none hkeeps total index hnone (fun _ => id) hsame []
  exact (htrail.invariant hkeeps hsame).2

/-! ## Below a directory -/

structure Store.ChangesBelow (place : Place) (before after : Store) : Prop where
  here_eq : after.here = before.here
  isTree : IsTree after
  directory : after.node? place = some .directory
  kept : ∀ other, isBelow place other = false →
      after.node? other = before.node? other

def Store.Scope.below (place : Place) (store other : Store) : Scope where
  here := store.here
  shared passed := isBelow place passed = true
  outside := store.node?
  outside' := other.node?

theorem sameIn_below {place : Place} {store other : Store}
    (htree : IsTree store) (htree' : IsTree other)
    (hhere : other.here = store.here)
    (hsame : ∀ passed, isBelow place passed = true →
      other.node? passed = store.node? passed) :
    SameIn (.below place store other) store other where
  here_eq := rfl
  here_eq' := hhere
  node passed hshared := .inl (hsame passed hshared)
  kept _ _ := rfl
  kept' _ _ := rfl
  isTree := htree
  isTree' := htree'

theorem Store.ChangesBelow.of_sameIn {place : Place}
    {store before after : Store} (hplace : store.node? place = some .directory)
    (hbefore : SameIn (.below place store store) before before)
    (hafter : SameIn (.below place store store) after after) :
    ChangesBelow place before after where
  here_eq := hafter.here_eq.trans hbefore.here_eq.symm
  isTree := hafter.isTree
  directory := (hafter.kept place (by simp [Scope.below, isBelow])).trans hplace
  kept other hother := by
    have hoff : ¬(Scope.below place store store).shared other := by
      simp [Scope.below, hother]
    rw [hafter.kept other hoff, hbefore.kept other hoff]

theorem runFrom_changesBelow (h : around.IsLocal place registry)
    {dataset : Dataset} {jobs : List Job} (hwired : IsWired dataset jobs)
    (total index : Nat) {state : σ} (htree : IsTree (place.store state))
    (hdirectory : (place.store state).isDirectory dataset.output = true) :
    ChangesBelow (placeOf (place.store state).here dataset.output)
      (place.store state)
      (place.store (runFrom around total index none jobs state).2) := by
  obtain ⟨-, hopen⟩ := isDirectory_iff.1 hdirectory
  have hsame :=
    @sameIn_below (placeOf (place.store state).here dataset.output) _ _ htree
      htree rfl
    fun _ _ => rfl
  refine .of_sameIn (hopen.directories _ (placeFrom_mem_walkFrom _ _)) hsame
    (runFrom_keeps h (fun job hjob => hwired.houses (fun passed hpassed => ?_)
      (fun _ => id) hjob) total index hsame)
  have hpassed := hopen.directories passed hpassed
  exact .inr ⟨hpassed, hpassed⟩

end JobChain
