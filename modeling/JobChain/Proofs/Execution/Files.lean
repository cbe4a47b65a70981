import JobChain.Proofs.Execution.Outcome
import JobChain.Proofs.Layout
import JobChain.Proofs.Store.Deletions
import JobChain.Proofs.Store.Found

/-!
# Files of a run

What a run does to a store besides what its engine does there: it makes room for
the output, it leaves a manifest, and it takes what a job has passed on once the
next one has read it.
-/

namespace JobChain

open Execution Store

variable {σ : Type}

/-! ## Files of jobs -/

namespace Job

def place (here : Place) (job : Job) : Place := placeOf here job.output.location

def fronts : List String := [graphOutput, mainOutput, successMark]

/-- The places of what a job leaves for the next, with all that lies below. -/
def passesOn (here : Place) (job : Job) (place : Place) : Prop :=
  ∃ front ∈ fronts, ∃ name, beginsWith front name = true ∧
    job.place here ++ [name] <+: place

def isManifest (here : Place) (job : Job) (place : Place) : Prop :=
  job.publishes = true ∧ place = job.place here ++ [manifestFile]

theorem place_of_passesOn {here place : Place} {job : Job}
    (h : job.passesOn here place) : job.place here <+: place := by
  obtain ⟨front, -, name, -, hbelow⟩ := h
  exact (List.prefix_append ..).trans hbelow

theorem place_of_isManifest {here place : Place} {job : Job}
    (h : job.isManifest here place) : job.place here <+: place := by
  rw [h.2]
  exact List.prefix_append ..

end Job

/-! ## Surroundings on a store -/

/-- Surroundings whose files are those of a store, which only an engine may
change otherwise. -/
structure Surroundings.IsOnStore (around : Surroundings σ)
    (place : HasStore σ) : Prop where
  store_withStore : ∀ store state,
      place.store (place.withStore store state) = store
  isThere_eq : ∀ path, around.isThere path = place.ask fun store =>
      store.has path
  makeDirectories_eq : ∀ path,
    around.makeDirectories path = place.work (Store.makeDirectories path)
  delete_eq : ∀ path, around.delete path = place.work (Store.delete path true)
  list_eq : ∀ pattern, around.list pattern =
    place.work
      (fun store => (store.listing pattern, store) : StoreM (List Path))
  publish_leaves : ∀ job state, ∃ time,
    place.store ((around.publish job).run state).2 =
    (Manifest.leave job.output.location time (place.store state)).2
  observe_keeps : ∀ run state, place.store (around.observe run state).2 =
      place.store state
  tell_keeps : ∀ line state, place.store (around.tell line state).2 =
      place.store state
  now_keeps : ∀ state, place.store (around.now state).2 = place.store state

theorem Surroundings.isOnStore_onStore {place : HasStore σ}
    (registry : Registry) {newId : StateM σ String}
    {observe : JobRun → StateM σ Unit} {tell : LogLine → StateM σ Unit}
    {now : StateM σ Timestamp}
    (runJob : Job → ExceptT Failure (StateM σ) JobReport)
    (hplace : ∀ store state, place.store (place.withStore store state) = store)
    (hobserve : ∀ run state, place.store (observe run state).2 =
      place.store state)
    (htell : ∀ line state, place.store (tell line state).2 = place.store state)
    (hnow : ∀ state, place.store (now state).2 = place.store state) :
    Surroundings.IsOnStore
      { Surroundings.onStore place registry newId observe tell now with runJob }
      place where
  store_withStore := hplace
  isThere_eq _ := rfl
  makeDirectories_eq _ := rfl
  delete_eq _ := rfl
  list_eq _ := rfl
  publish_leaves job state := ⟨(now state).1, by
    rw [← hnow state]
    exact hplace _ _⟩
  observe_keeps := hobserve
  tell_keeps := htell
  now_keeps := hnow

def Surroundings.IsConfined (around : Surroundings σ) (place : HasStore σ)
    (jobs : List Job) : Prop :=
  ∀ job ∈ jobs, ∀ state, ChangesAt (place.store state)
    (place.store ((around.runJob job).run state).2) fun other =>
      job.place (place.store state).here <+: other

namespace Surroundings.IsOnStore

variable {around : Surroundings σ} {place : HasStore σ}
  (h : around.IsOnStore place) {path : Path} {state after : σ}

include h

private theorem run_work {α ε : Type} {work : ExceptT ε (StateM Store) α}
    {result : Except ε α}
    (hwork : (place.work work).run state = (result, after)) :
    work (place.store state) = (result, place.store after) := by
  have hresult : (work (place.store state)).1 = result :=
    congrArg Prod.fst hwork
  have hafter : place.withStore (work (place.store state)).2 state = after :=
    congrArg Prod.snd hwork
  rw [← hafter, h.store_withStore, ← hresult]
  rfl

theorem run_isThere {there : Bool}
    (hrun : around.isThere path state = (there, after)) :
    there = (place.store state).has path ∧
    place.store after = place.store state := by
  rw [h.isThere_eq] at hrun
  obtain ⟨rfl, rfl⟩ := Prod.mk.inj hrun
  exact ⟨rfl, rfl⟩

theorem run_makeDirectories {result : Except IoError Unit}
    (hrun : (around.makeDirectories path).run state = (result, after)) :
    Store.makeDirectories path (place.store state) =
      (result, place.store after) :=
  h.run_work (by rw [← h.makeDirectories_eq, hrun])

theorem run_delete {result : Except IoError Bool}
    (hrun : (around.delete path).run state = (result, after)) :
    Store.delete path true (place.store state) = (result, place.store after) :=
  h.run_work (by rw [← h.delete_eq, hrun])

theorem run_list {pattern : String} {result : Except IoError (List Path)}
    (hrun : (around.list pattern).run state = (result, after)) :
    result = (place.store state).listing pattern ∧
    place.store after = place.store state := by
  rw [h.list_eq] at hrun
  obtain ⟨hresult, hafter⟩ := Prod.mk.inj (h.run_work hrun)
  exact ⟨hresult.symm, hafter.symm⟩

theorem run_tell {line : LogLine} {answer : Unit}
    (hrun : around.tell line state = (answer, after)) :
    place.store after = place.store state := by
  rw [← h.tell_keeps line state, hrun]

theorem run_observe {run : JobRun} {answer : Unit}
    (hrun : around.observe run state = (answer, after)) :
    place.store after = place.store state := by
  rw [← h.observe_keeps run state, hrun]

theorem run_now {time : Timestamp} (hrun : around.now state = (time, after)) :
    place.store after = place.store state := by
  rw [← h.now_keeps state, hrun]

end Surroundings.IsOnStore

end JobChain
