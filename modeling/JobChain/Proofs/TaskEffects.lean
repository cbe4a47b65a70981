import JobChain.Proofs.Counters
import JobChain.Task
import Mathlib.Algebra.BigOperators.Group.List.Basic
import Mathlib.Algebra.GroupWithZero.Nat

/-!
# What actions do to a task

A task keeps four things apart: what was written, what was written to each named
output, the sums of the counters and the ticks of progress. Each of them is read
off the actions alone (`Task.emitted_performAll` and the lemmas behind it), and
all but the order of what was written is the same for any order of the actions.
-/

namespace JobChain

/-! ## Views of actions -/

namespace Action

def written? : Action → Option Pair
  | .write pair => some pair
  | _ => none

def isWrite (action : Action) : Bool := action.written?.isSome

def namedPair? (output : String) : Action → Option Pair
  | .writeNamed name pair => if name = output then some pair else none
  | _ => none

def amount (group name : String) : Action → Nat
  | .count g n amount => if g = group ∧ n = name then amount else 0
  | _ => 0

def increment? : Action → Option Increment
  | .count group name amount => some (group, name, amount)
  | _ => none

def ticks : Action → Nat
  | .progress => 1
  | _ => 0

end Action

def written (actions : List Action) : List Pair :=
  actions.filterMap Action.written?

/-- The actions that leave the main output alone. -/
def aside (actions : List Action) : List Action :=
  actions.filter fun action => !action.isWrite

def namedPairs (output : String) (actions : List Action) : List Pair :=
  actions.filterMap (Action.namedPair? output)

def amounts (group name : String) (actions : List Action) : Nat :=
  (actions.map (Action.amount group name)).sum

/-- What some actions count, one by one. -/
def incrementsOf (actions : List Action) : List Increment :=
  actions.filterMap Action.increment?

def tickCount (actions : List Action) : Nat := (actions.map Action.ticks).sum

@[simp] theorem written_nil : written [] = [] := rfl

@[simp] theorem written_cons (action : Action) (rest : List Action) :
    written (action :: rest) = action.written?.toList ++ written rest := by
  cases h : action.written? <;> simp [written, h]

@[simp] theorem written_append (first second : List Action) :
    written (first ++ second) = written first ++ written second :=
  List.filterMap_append

@[simp] theorem aside_nil : aside [] = [] := rfl

@[simp] theorem aside_append (first second : List Action) :
    aside (first ++ second) = aside first ++ aside second :=
  List.filter_append ..

@[simp] theorem written_aside
    (actions : List Action) : written (aside actions) = [] := by
  simp only [written, aside, List.filterMap_eq_nil_iff, List.mem_filter]
  intro action haction
  simpa [Action.isWrite] using haction.2

theorem aside_eq_self_of_written_eq_nil {actions : List Action}
    (h : written actions = []) : aside actions = actions := by
  simp only [written, List.filterMap_eq_nil_iff] at h
  simp only [aside, List.filter_eq_self]
  intro action haction
  simp [Action.isWrite, h action haction]

@[simp] theorem namedPairs_nil (output : String) :
    namedPairs output [] = [] := rfl

@[simp] theorem namedPairs_cons (output : String) (action : Action)
    (rest : List Action) : namedPairs output (action :: rest) =
      (action.namedPair? output).toList ++ namedPairs output rest := by
  cases h : action.namedPair? output <;> simp [namedPairs, h]

@[simp] theorem namedPairs_append (output : String)
    (first second : List Action) :
    namedPairs output (first ++ second) = namedPairs output first ++
    namedPairs output second :=
  List.filterMap_append

@[simp] theorem amounts_append (group name : String)
    (first second : List Action) :
    amounts group name (first ++ second) = amounts group name first +
    amounts group name second := by
  simp [amounts]

@[simp] theorem tickCount_append (first second : List Action) :
    tickCount (first ++ second) = tickCount first + tickCount second := by
  simp [tickCount]

/-! What is aside counts for everything but the main output. -/

@[simp] theorem namedPairs_aside (output : String) (actions : List Action) :
    namedPairs output (aside actions) = namedPairs output actions := by
  induction actions with
  | nil => rfl
  | cons action rest ih =>
      cases action <;>
        simpa [aside, Action.isWrite, Action.written?, Action.namedPair?]
          using ih

private theorem amountIn_incrementsOf (group name : String)
    (actions : List Action) :
    amountIn group name (incrementsOf actions) =
      amounts group name actions := by
  induction actions with
  | nil => rfl
  | cons action rest ih =>
      cases action with
      | count => exact congrArg (_ + ·) ih
      | write | writeNamed | setStatus | progress =>
          exact ih.trans (Nat.zero_add _).symm

@[simp] theorem amounts_aside (group name : String) (actions : List Action) :
    amounts group name (aside actions) = amounts group name actions := by
  induction actions with
  | nil => rfl
  | cons action rest ih =>
      cases action <;>
        simpa [amounts, aside, Action.isWrite, Action.written?, Action.amount]
          using ih

@[simp] theorem tickCount_aside (actions : List Action) :
    tickCount (aside actions) = tickCount actions := by
  induction actions with
  | nil => rfl
  | cons action rest ih =>
      cases action <;>
        simpa [tickCount, aside, Action.isWrite, Action.written?, Action.ticks]
          using ih

/-! A row of ticks does nothing else. -/

@[simp] theorem written_replicate_progress (n : Nat) :
    written (List.replicate n .progress) = [] := by
  simp [written, List.filterMap_replicate, Action.written?]

@[simp] theorem namedPairs_replicate_progress (output : String) (n : Nat) :
    namedPairs output (List.replicate n .progress) = [] := by
  simp [namedPairs, List.filterMap_replicate, Action.namedPair?]

@[simp] theorem amounts_replicate_progress (group name : String) (n : Nat) :
    amounts group name (List.replicate n .progress) = 0 := by
  simp [amounts, Action.amount]

@[simp] theorem tickCount_replicate_progress (n : Nat) :
    tickCount (List.replicate n .progress) = n := by
  simp [tickCount, Action.ticks]

/-! ## Tasks -/

namespace Context

variable {τ : Type} [Context τ]

@[simp] theorem performAll_nil (context : τ) :
    performAll context [] = context := rfl

@[simp] theorem performAll_cons (context : τ) (action : Action)
    (rest : List Action) :
    performAll context (action :: rest) =
      performAll (perform context action) rest := rfl

theorem performAll_append (context : τ) (first second : List Action) :
    performAll context (first ++ second) =
      performAll (performAll context first) second :=
  List.foldl_append

@[simp] theorem performAll_task (task : Task) (actions : List Action) :
    performAll task actions = task.performAll actions := rfl

@[simp] theorem perform_task (task : Task) (action : Action) :
    perform task action = task.perform action := rfl

end Context

namespace Task

/-- The pairs of a named output; an output that nobody has written to has
none. -/
def namedList (task : Task) (output : String) : List Pair :=
  ((task.named.get? output).getD #[]).toList

@[simp] theorem performAll_nil (task : Task) : task.performAll [] = task := rfl

@[simp] theorem performAll_cons (task : Task) (action : Action)
    (rest : List Action) :
    task.performAll (action :: rest) = (task.perform action).performAll rest :=
  rfl

theorem performAll_append (task : Task) (first second : List Action) :
    task.performAll (first ++ second) =
      (task.performAll first).performAll second :=
  List.foldl_append

theorem emitted_performAll (task : Task) (actions : List Action) :
    (task.performAll actions).emitted.toList = task.emitted.toList ++
    written actions := by
  induction actions generalizing task with
  | nil => simp
  | cons action rest ih =>
      rw [performAll_cons, ih]
      cases action <;> simp [perform, Action.written?]

theorem namedList_performAll (task : Task) (output : String)
    (actions : List Action) : (task.performAll actions).namedList output =
      task.namedList output ++ namedPairs output actions := by
  induction actions generalizing task with
  | nil => simp
  | cons action rest ih =>
      rw [performAll_cons, ih]
      cases action with
      | writeNamed name pair =>
          by_cases h : name = output
          · subst h
            simp [perform, namedList, Action.namedPair?, SortedMap.update,
              SortedMap.get?_insert]
          · have hne : ¬output = name := fun heq => h heq.symm
            simp [perform, namedList, Action.namedPair?, SortedMap.update,
              SortedMap.get?_insert, h, hne]
      | write | count | setStatus | progress =>
          simp [perform, namedList, Action.namedPair?]

private theorem counters_performAll (task : Task) (actions : List Action) :
    (task.performAll actions).counters =
      task.counters.addAll (incrementsOf actions) := by
  induction actions generalizing task with
  | nil => rfl
  | cons action rest ih =>
      rw [performAll_cons, ih]
      cases action <;> rfl

theorem counters_performAll_empty (actions : List Action) :
    (({} : Task).performAll actions).counters =
      Counters.ofIncrements (incrementsOf actions) :=
  counters_performAll {} actions

theorem get_counters_performAll (task : Task) (group name : String)
    (actions : List Action) :
    (task.performAll actions).counters.get group name =
      task.counters.get group name + amounts group name actions := by
  rw [counters_performAll, Counters.get_addAll, amountIn_incrementsOf]

theorem progress_performAll (task : Task) (actions : List Action) :
    (task.performAll actions).progress = task.progress + tickCount actions := by
  induction actions generalizing task with
  | nil => simp [tickCount]
  | cons action rest ih =>
      rw [performAll_cons, ih]
      cases action <;> simp [perform, tickCount, Action.ticks, Nat.add_assoc]

end Task

/-! ## Actions in another order -/

/-- Actions that write the same in the same order and do everything else in any
order. -/
def Alike (first second : List Action) : Prop :=
  written first = written second ∧ first.Perm second

namespace Alike

variable {first second third fourth : List Action}

@[refl] theorem refl (actions : List Action) : Alike actions actions :=
  ⟨rfl, .refl _⟩

theorem trans (h : Alike first second)
    (h' : Alike second third) : Alike first third :=
  ⟨h.1.trans h'.1, h.2.trans h'.2⟩

theorem append (h : Alike first second) (h' : Alike third fourth) :
    Alike (first ++ third) (second ++ fourth) :=
  ⟨by rw [written_append, written_append, h.1, h'.1], h.2.append h'.2⟩

theorem swap (h : written second = []) :
    Alike (first ++ second) (second ++ first) :=
  ⟨by simp [h], List.perm_append_comm⟩

theorem amounts_eq (h : Alike first second) (group name : String) :
    amounts group name first = amounts group name second :=
  (h.2.map _).sum_eq

theorem tickCount_eq (h : Alike first second) :
    tickCount first = tickCount second :=
  (h.2.map _).sum_eq

theorem namedPairs_perm (h : Alike first second) (output : String) :
    (namedPairs output first).Perm (namedPairs output second) :=
  h.2.filterMap _

end Alike

end JobChain
