import JobChain.Proofs.Engine.Outputs
import JobChain.Proofs.Store.Likeness

/-!
# The engine on stores that differ in contents

Writing the outputs of a task and the files of a shuffle goes alike on stores
that differ in contents alone. Where such files are read, it depends on what is
made of their contents.
-/

namespace JobChain

/-! ## Efforts -/

namespace Together

open Engine (attempt)

variable {α β : Type} {near : Store → Store → Prop} {like : α → β → Prop}
  {store other : Store}

theorem ofStoreM {work : StoreM α} {work' : StoreM β}
    (h : Together near like (outcome work store) (outcome work' other)) :
    Together near like (outcome (Effort.ofStoreM work) store)
      (outcome (Effort.ofStoreM work') other) :=
  ⟨h.answers.mapError IoError.failure, h.stores⟩

variable {work : Effort α} {work' : Effort β}

theorem within
    (h : Together near like (outcome work store) (outcome work' other))
    (context : String) :
    Together near like (outcome (work.within context) store)
      (outcome (work'.within context) other) :=
  ⟨h.answers.mapError (Failure.within context), h.stores⟩

theorem attempt
    (h : Together near like (outcome work store) (outcome work' other)) :
    Together near (Matches like) (outcome (attempt work) store)
      (outcome (attempt work') other) :=
  ⟨.ok h.answers, h.stores⟩

theorem ofExcept {ε : Type} (h : near store other) (failure : ε → Failure)
    (result : Except ε α) :
    Together near (fun answer answer' => answer' = answer ∧
      result = .ok answer) (outcome (Effort.ofExcept failure result) store)
        (outcome (Effort.ofExcept failure result) other) := by
  cases result with
  | ok answer => exact ⟨.ok ⟨rfl, rfl⟩, h⟩
  | error error => exact ⟨.error (failure error), h⟩

theorem throw (h : near store other) (failure : Failure) :
    Together near like (outcome (throw failure : Effort α) store)
      (outcome (throw failure : Effort β) other) :=
  ⟨.error failure, h⟩

end Together

/-! ## Files of tasks -/

namespace Store.Resembles

open Engine

variable {here : Place} {differ : Place → Content → Content → Prop}
  {store other : Store}

theorem writeOutput (h : Resembles here differ store other) (job : Job)
    (side : Side) (task : Nat) (output : String) (pairs : List Pair) :
    Together (Resembles here differ) Eq
      (outcome (writeOutput job side task output pairs) store)
      (outcome (writeOutput job side task output pairs) other) := by
  unfold Engine.writeOutput
  split_ifs
  · exact .pure rfl h
  · split
    · exact .throw h _
    · exact ((h.save (.inl rfl)).ofStoreM).within _

theorem writeAll (h : Resembles here differ store other) (job : Job)
    (side : Side) (task : Nat) (entries : List (String × Array Pair)) :
    Together (Resembles here differ) Eq
      (outcome (writeAll job side task entries) store)
      (outcome (writeAll job side task entries) other) := by
  induction entries generalizing store other with
  | nil => exact .pure rfl h
  | cons entry rest ih =>
      exact (h.writeOutput job side task entry.1 entry.2.toList).bind
        fun _ _ _ _ _ hlater => ih hlater

theorem writeShuffle (h : Resembles here differ store other) {directory : Path}
    {part part' : Nat → List Pair} (first count : Nat)
    (hdiffer : ∀ index, differ (placeOf here (shufflePath directory index))
      (.text (RecordFormat.intermediate.write (part index)))
      (.text (RecordFormat.intermediate.write (part' index)))) :
    Together (Resembles here differ) Eq
      (outcome
        (writeShuffle directory first
          ((List.range' first count).map part)) store)
      (outcome
        (writeShuffle directory first ((List.range' first count).map part'))
        other) := by
  induction count generalizing first store other with
  | zero => exact .pure rfl h
  | succ count ih =>
      rw [List.range'_succ]
      refine (h.save (.inr (hdiffer first))).ofStoreM.bind
        fun _ _ _ _ _ hlater => ?_
      refine (ih hlater (first + 1)).bind
        fun paths paths' _ _ hpaths hlast => ?_
      exact .pure (congrArg _ hpaths) hlast

/-- Records are read alike where files hold the same, and where they may differ
if what is read of both is alike. -/
theorem load (h : Resembles here differ store other)
    {like : List Pair → List Pair → Prop} {format : RecordFormat} {path : Path}
    (hdiffer : ∀ content content', differ (placeOf here path) content content' →
      Matches like (format.read path content) (format.read path content'))
    (hsame : ∀ pairs, like pairs pairs) :
    Together (Resembles here differ) like (outcome (format.load path) store)
      (outcome (format.load path) other) :=
  ((resembles_iff.1 h).load (Scope.covers_whole here path) hdiffer hsame).imp
    fun _ _ => resembles_iff.2

end Store.Resembles

end JobChain
