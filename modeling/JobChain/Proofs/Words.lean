import JobChain.Proofs.TaskEffects
import Mathlib.Data.Option.Basic

/-!
# Sums in words

The sums of a task are words of 64 bits. Whether one that takes more wraps
around or breaks the program off depends on how the program is built. Either way
what is shown of a sum depends on its amount alone, not on the steps in which it
was added up.
-/

namespace JobChain

/-! ## Arithmetic -/

/-- What becomes of a sum that does not fit in 64 bits. -/
inductive Overflow where
  | stops
  | wraps
  deriving DecidableEq, Repr

namespace Overflow

def word? : Overflow → Nat → Option Nat
  | .stops, n => if n < 2 ^ 64 then some n else none
  | .wraps, n => some (n % 2 ^ 64)

def add? (overflow : Overflow) (a b : Nat) : Option Nat :=
  overflow.word? (a + b)

private theorem word?_zero
    (overflow : Overflow) : overflow.word? 0 = some 0 := by
  cases overflow <;> rfl

theorem add?_word? (overflow : Overflow) (total amount : Nat) :
    (overflow.word? total).bind (overflow.add? · amount) =
      overflow.word? (total + amount) := by
  cases overflow with
  | stops =>
      simp only [add?, word?]
      by_cases hfits : total < 2 ^ 64
      · rw [if_pos hfits, Option.bind_some]
      · rw [if_neg hfits, if_neg (by omega), Option.bind_none]
  | wraps => simp [add?, word?]

private theorem add?_words? (overflow : Overflow) (total part : Nat) :
    ((overflow.word? total).bind fun sum =>
      (overflow.word? part).bind (overflow.add? sum)) =
      overflow.word? (total + part) := by
  cases hpart : overflow.word? part with
  | some word =>
      have hword := overflow.add?_word? total word
      cases overflow with
      | stops =>
          obtain ⟨-, rfl⟩ : part < 2 ^ 64 ∧ part = word := by
            simpa [word?] using hpart
          exact hword
      | wraps =>
          obtain rfl : part % 2 ^ 64 = word := by simpa [word?] using hpart
          exact hword.trans (by simp [word?])
  | none =>
      cases overflow with
      | wraps => cases hpart
      | stops =>
          have hlarge : ¬part < 2 ^ 64 := by simpa [word?] using hpart
          have htotal : ¬total + part < 2 ^ 64 := by omega
          simp only [Option.bind_none, Option.bind_fun_none, word?,
            if_neg htotal]

theorem word?_isSome_of_le {overflow : Overflow} {a b : Nat} (hle : a ≤ b)
    (h : (overflow.word? b).isSome) : (overflow.word? a).isSome := by
  cases overflow with
  | wraps => rfl
  | stops =>
      simp only [word?, Option.isSome_ite] at h ⊢
      omega

def total? (overflow : Overflow) (sums : List (Option Nat)) : Option Nat :=
  sums.foldlM (fun total sum? => sum?.bind (overflow.add? total)) 0

theorem total?_word? (overflow : Overflow) (amounts : List Nat) :
    overflow.total? (amounts.map overflow.word?) =
      overflow.word? amounts.sum := by
  have hfrom : ∀ total, ((overflow.word? total).bind fun sum =>
      (amounts.map overflow.word?).foldlM
        (fun total sum? => sum?.bind (overflow.add? total)) sum) =
      overflow.word? (total + amounts.sum) := by
    induction amounts with
    | nil => simp
    | cons amount rest ih =>
        intro total
        have hstep := add?_words? overflow total amount
        simp only [List.map_cons, List.foldlM_cons, List.sum_cons,
          ← Nat.add_assoc]
        rw [← ih, ← hstep, Option.bind_assoc]
        rfl
  have hzero := hfrom 0
  rw [word?_zero, Option.bind_some, Nat.zero_add] at hzero
  exact hzero

theorem total?_of_none {overflow : Overflow} {sums : List (Option Nat)}
    (h : none ∈ sums) : overflow.total? sums = none := by
  have hfrom : ∀ total : Nat,
      sums.foldlM (fun total sum? => sum?.bind (overflow.add? total)) total =
        none := by
    induction sums with
    | nil => cases h
    | cons sum? rest ih =>
        intro total
        rw [List.foldlM_cons]
        cases sum? with
        | none => rfl
        | some sum =>
            have hrest : none ∈ rest := by simpa using h
            rw [Option.bind_some]
            cases overflow.add? total sum with
            | none => rfl
            | some next => exact ih hrest next
  exact hfrom 0

end Overflow

def Counters.put (counters : Counters) (group name : String)
    (sum : Nat) : Counters :=
  counters.update group fun names => (names.getD .empty).insert name sum

private theorem Counters.get_put (counters : Counters) (group name g n : String)
    (sum : Nat) : (counters.put group name sum).get g n =
      if g = group ∧ n = name then sum else counters.get g n := by
  simp only [put, Counters.get, SortedMap.update, SortedMap.get?_insert]
  by_cases hgroup : g = group
  · subst hgroup
    by_cases hname : n = name <;>
      cases hnames : counters.get? g <;> simp [SortedMap.get?_insert, hname]
  · simp [hgroup]

/-! ## Tasks -/

namespace Task

def perform? (task : Task) (overflow : Overflow) : Action → Option Task
  | .count group name amount =>
      (overflow.add? (task.counters.get group name) amount).map fun sum =>
        { task with counters := task.counters.put group name sum }
  | .progress => (overflow.add? task.progress 1).map fun progress =>
      { task with progress }
  | action => some (task.perform action)

/-- A task in words next to one whose sums have no bound. -/
structure Shows (overflow : Overflow) (task shown : Task) : Prop where
  emitted : shown.emitted = task.emitted
  named : shown.named = task.named
  status : shown.status = task.status
  counters : ∀ group name,
    overflow.word? (task.counters.get group name) =
      some (shown.counters.get group name)
  progress : overflow.word? task.progress = some shown.progress

structure Fits (overflow : Overflow) (task : Task) : Prop where
  counters : ∀ group name,
      (overflow.word? (task.counters.get group name)).isSome
  progress : (overflow.word? task.progress).isSome

variable {overflow : Overflow} {task shown : Task}

theorem Shows.fits (h : Shows overflow task shown) : task.Fits overflow where
  counters group name := by rw [h.counters]; rfl
  progress := by rw [h.progress]; rfl

private theorem shows_empty (overflow : Overflow) : Shows overflow {} {} where
  emitted := rfl
  named := rfl
  status := rfl
  counters _ _ := overflow.word?_zero
  progress := overflow.word?_zero

private theorem le_get_counters_perform (task : Task) (action : Action)
    (group name : String) :
    task.counters.get group name ≤
      (task.perform action).counters.get group name := by
  cases action with
  | count g n amount =>
      simp only [perform, Counters.get_increment]
      exact Nat.le_add_right ..
  | write | writeNamed | setStatus | progress => exact Nat.le_refl _

private theorem progress_le_perform (task : Task) (action : Action) :
    task.progress ≤ (task.perform action).progress := by
  cases action with
  | progress => exact Nat.le_succ _
  | write | writeNamed | setStatus | count => exact Nat.le_refl _

private theorem Fits.of_perform {action : Action}
    (h : (task.perform action).Fits overflow) : task.Fits overflow where
  counters group name :=
    overflow.word?_isSome_of_le (le_get_counters_perform task action group name)
      (h.counters group name)
  progress :=
    overflow.word?_isSome_of_le (progress_le_perform task action) h.progress

private theorem Shows.perform? (h : Shows overflow task shown)
    (action : Action) : (∃ next, shown.perform? overflow action = some next ∧
      Shows overflow (task.perform action) next) ∨
    (shown.perform? overflow action = none ∧
      ¬(task.perform action).Fits overflow) := by
  cases action with
  | count group name amount =>
      have hsum := overflow.add?_word? (task.counters.get group name) amount
      rw [h.counters group name, Option.bind_some] at hsum
      have hself :
          (task.perform (.count group name amount)).counters.get group name =
          task.counters.get group name + amount := by
        simp [Task.perform, Counters.get_increment]
      cases hadd : overflow.add? (shown.counters.get group name) amount with
      | none =>
          refine .inr ⟨by rw [Task.perform?, hadd]; rfl, fun hfits => ?_⟩
          have hword := hfits.counters group name
          rw [hself, ← hsum, hadd] at hword
          cases hword
      | some sum =>
          refine .inl ⟨_, by rw [Task.perform?, hadd]; rfl, ?_⟩
          refine { emitted := h.emitted, named := h.named, status := h.status
                   progress := h.progress, counters := fun g n => ?_ }
          rw [Counters.get_put]
          split
          · rename_i hhere
            obtain ⟨rfl, rfl⟩ := hhere
            rw [hself, ← hsum, hadd]
          · rename_i helse
            have hother :
                (task.perform (.count group name amount)).counters.get g n =
                task.counters.get g n := by
              simp only [Task.perform, Counters.get_increment]
              rw [if_neg fun heq => helse ⟨heq.1.symm, heq.2.symm⟩,
                Nat.add_zero]
            rw [hother]
            exact h.counters g n
  | progress =>
      have hsum := overflow.add?_word? task.progress 1
      rw [h.progress, Option.bind_some] at hsum
      cases hadd : overflow.add? shown.progress 1 with
      | none =>
          refine .inr ⟨by rw [Task.perform?, hadd]; rfl, fun hfits => ?_⟩
          have hword := hfits.progress
          rw [Task.perform, ← hsum, hadd] at hword
          cases hword
      | some progress =>
          refine .inl ⟨_, by rw [Task.perform?, hadd]; rfl, ?_⟩
          exact { h with progress := hsum.symm.trans hadd }
  | write pair =>
      exact .inl
        ⟨_, rfl, { h with emitted := congrArg (·.push pair) h.emitted }⟩
  | writeNamed output pair =>
      refine .inl ⟨_, rfl, { h with named := ?_ }⟩
      simp only [Task.perform, h.named]
  | setStatus status => exact .inl ⟨_, rfl, { h with status := rfl }⟩

end Task

/-- A task that counts in words, unless it has been broken off. -/
structure WordTask (overflow : Overflow) where
  task? : Option Task

namespace WordTask

variable {overflow : Overflow}

instance : Context (WordTask overflow) where
  perform context action :=
    ⟨context.task?.bind fun task => task.perform? overflow action⟩

def start (overflow : Overflow) : WordTask overflow := ⟨some {}⟩

private theorem performAll_none (actions : List Action) :
    Context.performAll (⟨none⟩ : WordTask overflow) actions = ⟨none⟩ := by
  induction actions with
  | nil => rfl
  | cons action rest ih => exact ih

private theorem performAll_of_shows {task shown : Task}
    (h : Task.Shows overflow task shown) (actions : List Action) :
    (∃ after, Context.performAll (⟨some shown⟩ : WordTask overflow) actions =
      ⟨some after⟩ ∧ Task.Shows overflow (task.performAll actions) after) ∨
    (Context.performAll (⟨some shown⟩ : WordTask overflow) actions = ⟨none⟩ ∧
      ¬(task.performAll actions).Fits overflow) := by
  induction actions generalizing task shown with
  | nil => exact .inl ⟨shown, rfl, h⟩
  | cons action rest ih =>
      have hstep :
          Context.performAll (⟨some shown⟩ : WordTask overflow)
            (action :: rest) =
          Context.performAll
            (⟨shown.perform? overflow action⟩ : WordTask overflow) rest := rfl
      rw [hstep, Task.performAll_cons]
      rcases h.perform? action with ⟨next, heq, hnext⟩ | ⟨heq, hnot⟩
      · rw [heq]
        exact ih hnext
      · rw [heq]
        refine .inr ⟨performAll_none rest, fun hfits => hnot ?_⟩
        clear ih hstep heq hnot
        generalize task.perform action = stopped at hfits ⊢
        induction rest generalizing stopped with
        | nil => exact hfits
        | cons next others ih => exact (ih _ hfits).of_perform

/-- A task in words is broken off unless all sums of the task without bounds
fit, and otherwise shows them. -/
theorem performAll_start (overflow : Overflow) (actions : List Action) :
    ((Context.performAll (start overflow) actions).task?.isSome ↔
      (({} : Task).performAll actions).Fits overflow) ∧
    ∀ shown, (Context.performAll (start overflow) actions).task? = some shown →
      Task.Shows overflow (({} : Task).performAll actions) shown := by
  rcases performAll_of_shows (Task.shows_empty overflow) actions with
    ⟨after, heq, hshows⟩ | ⟨heq, hnot⟩
  · rw [start, heq]
    refine ⟨iff_of_true rfl hshows.fits, fun shown hshown => ?_⟩
    obtain rfl := Option.some.inj hshown
    exact hshows
  · rw [start, heq]
    exact ⟨iff_of_false Bool.false_ne_true hnot,
      fun shown hshown => nomatch hshown⟩

end WordTask

end JobChain
