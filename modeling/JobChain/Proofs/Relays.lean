import JobChain.Relay
import Mathlib.Data.List.DropRight

/-!
# What a relay holds

A call on a relay keeps a pair, sends an action on to the task, enters a stage
or takes what is held. Where a write goes depends on the stage entered last.
What a relay holds and counts are the pairs kept since the last taking, whatever
else was called between, and no pair is taken out twice.
-/

namespace JobChain.Relay

/-! ## Calls and their effects -/

/-- What can be done with a relay. -/
inductive Call where
  | emit (pair : Pair)
  | perform (action : Action)
  | enter (options : Options) (terminal : Bool)
  | consume
  deriving DecidableEq

inductive Effect where
  | kept (pair : Pair)
  | sent (action : Action)
  | entered (options : Options) (terminal : Bool)
  | taken
  deriving DecidableEq

namespace Effect

def kept? : Effect → Option Pair
  | .kept pair => some pair
  | _ => none

def sent? : Effect → Option Action
  | .sent action => some action
  | _ => none

def entered? : Effect → Option (Options × Bool)
  | .entered options terminal => some (options, terminal)
  | _ => none

end Effect

def Call.effect (terminal : Bool) : Call → Effect
  | .emit pair => .kept pair
  | .perform (.write pair) =>
      if terminal then .sent (.write pair) else .kept pair
  | .perform action => .sent action
  | .enter options terminal => .entered options terminal
  | .consume => .taken

def Call.terminalAfter (terminal : Bool) : Call → Bool
  | .enter _ entered => entered
  | _ => terminal

def effects (terminal : Bool) : List Call → List Effect
  | [] => []
  | call :: rest =>
      call.effect terminal :: effects (call.terminalAfter terminal) rest

def keptIn (effects : List Effect) : List Pair := effects.filterMap Effect.kept?

def sentIn (effects : List Effect) : List Action :=
  effects.filterMap Effect.sent?

def pendingIn (effects : List Effect) : List Pair :=
  keptIn (effects.rtakeWhile (· ≠ .taken))

def stageIn (options : Options) (effects : List Effect) : Options × Bool :=
  (effects.filterMap Effect.entered?).getLast?.getD (options, false)

private theorem keptIn_concat (effects : List Effect) (effect : Effect) :
    keptIn (effects ++ [effect]) = keptIn effects ++ effect.kept?.toList := by
  cases effect <;> simp [keptIn, Effect.kept?]

private theorem sentIn_concat (effects : List Effect) (effect : Effect) :
    sentIn (effects ++ [effect]) = sentIn effects ++ effect.sent?.toList := by
  cases effect <;> simp [sentIn, Effect.sent?]

private theorem pendingIn_concat (effects : List Effect) {effect : Effect}
    (h : effect ≠ .taken) :
    pendingIn (effects ++ [effect]) = pendingIn effects ++
    effect.kept?.toList := by
  rw [pendingIn, List.rtakeWhile_concat_pos _ _ _ (by simpa using h),
    keptIn_concat, pendingIn]

private theorem pendingIn_taken (effects : List Effect) :
    pendingIn (effects ++ [.taken]) = [] := by
  rw [pendingIn, List.rtakeWhile_concat_neg _ _ _ (by simp)]
  rfl

private theorem stageIn_concat (options : Options) (effects : List Effect)
    (effect : Effect) :
    stageIn options (effects ++ [effect]) =
      effect.entered?.getD (stageIn options effects) := by
  cases effect <;> simp [stageIn, Effect.entered?]

/-! ## Serving calls -/

def opened (options : Options) (task : Task) : Relay Task := { options, task }

def serve (relay : Relay Task) : Call → Relay Task
  | .emit pair => relay.emit pair
  | .perform action => relay.perform action
  | .enter options terminal => relay.enter options terminal
  | .consume => relay.consume.2

def answer? (relay : Relay Task) : Call → Option Pair
  | .consume => relay.consume.1
  | _ => none

private theorem answer?_eq_none {relay : Relay Task} {call : Call}
    (h : call ≠ .consume) : relay.answer? call = none := by
  cases call with
  | consume => exact absurd rfl h
  | emit | perform | enter => rfl

def serveAll (relay : Relay Task) : List Call → Relay Task
  | [] => relay
  | call :: rest => (relay.serve call).serveAll rest

def answers (relay : Relay Task) : List Call → List Pair
  | [] => []
  | call :: rest =>
      (relay.answer? call).toList ++ (relay.serve call).answers rest

/-- Every action but a write goes to the task and nowhere else, and at the last
stage a write does. -/
theorem perform_eq_forward {relay : Relay Task} {action : Action}
    (h : relay.terminal = true ∨ ∀ pair, action ≠ .write pair) :
    relay.perform action = relay.forward action := by
  cases action with
  | write pair =>
      rcases h with h | h
      · simp [perform, h]
      · exact absurd rfl (h pair)
  | writeNamed | count | setStatus | progress => rfl

private theorem terminal_serve (relay : Relay Task) (call : Call) :
    (relay.serve call).terminal = call.terminalAfter relay.terminal := by
  cases call with
  | perform action =>
      cases action with
      | write pair =>
          cases hterminal : relay.terminal <;>
            simp [serve, perform, hterminal, forward, emit, Call.terminalAfter]
      | writeNamed | count | setStatus | progress => rfl
  | emit | enter | consume => rfl

/-! ## The invariant -/

/-- A relay is as its history tells, and no pair that it has given back is still
held. -/
structure Reflects (options : Options) (task : Task) (effects : List Effect)
    (returned : List Pair) (relay : Relay Task) : Prop where
  slot_eq : relay.slot = (pendingIn effects).getLast?
  emitted_eq : relay.emitted = (pendingIn effects).length
  task_eq : relay.task = task.performAll (sentIn effects)
  stage_eq : (relay.options, relay.terminal) = stageIn options effects
  returned_sublist : (returned ++ relay.slot.toList).Sublist (keptIn effects)

private theorem reflects_opened (options : Options) (task : Task) :
    Reflects options task [] [] (opened options task) :=
  ⟨rfl, rfl, rfl, rfl, .refl _⟩

namespace Reflects

variable {options : Options} {task : Task} {effects : List Effect}
  {returned : List Pair} {relay : Relay Task}
  (h : Reflects options task effects returned relay)

include h

theorem emit (pair : Pair) :
    Reflects options task (effects ++ [.kept pair]) returned
      (relay.emit pair) := by
  have hpending : pendingIn (effects ++ [.kept pair]) = pendingIn effects ++
      [pair] :=
    pendingIn_concat effects (by simp)
  constructor
  · rw [hpending, List.getLast?_concat]
    rfl
  · rw [hpending, List.length_append, ← h.emitted_eq]
    rfl
  · simpa [sentIn_concat, Effect.sent?, Relay.emit] using h.task_eq
  · rw [stageIn_concat]
    exact h.stage_eq
  · have hreturned : returned.Sublist (keptIn effects) :=
      (List.sublist_append_left ..).trans h.returned_sublist
    rw [keptIn_concat]
    exact hreturned.append (.refl [pair])

theorem forward (action : Action) :
    Reflects options task (effects ++ [.sent action]) returned
      (relay.forward action) := by
  have hpending : pendingIn (effects ++ [.sent action]) = pendingIn effects :=
    (pendingIn_concat effects (by simp)).trans (List.append_nil _)
  constructor
  · rw [hpending]
    exact h.slot_eq
  · rw [hpending]
    exact h.emitted_eq
  · simp only [sentIn_concat, Effect.sent?, Option.toList_some, Relay.forward,
      h.task_eq, Task.performAll, List.foldl_append, List.foldl_cons,
      List.foldl_nil]
    rfl
  · rw [stageIn_concat]
    exact h.stage_eq
  · simpa [keptIn_concat, Effect.kept?, Relay.forward] using h.returned_sublist

theorem enter (entered : Options) (terminal : Bool) :
    Reflects options task (effects ++ [.entered entered terminal]) returned
      (relay.enter entered terminal) := by
  have hpending : pendingIn (effects ++ [.entered entered terminal]) =
      pendingIn effects :=
    (pendingIn_concat effects (by simp)).trans (List.append_nil _)
  constructor
  · rw [hpending]
    exact h.slot_eq
  · rw [hpending]
    exact h.emitted_eq
  · simpa [sentIn_concat, Effect.sent?, Relay.enter] using h.task_eq
  · rw [stageIn_concat]
    rfl
  · simpa [keptIn_concat, Effect.kept?, Relay.enter] using h.returned_sublist

theorem consume :
    Reflects options task (effects ++ [.taken]) (returned ++
      relay.consume.1.toList) relay.consume.2 := by
  constructor
  · rw [pendingIn_taken]
    rfl
  · rw [pendingIn_taken]
    rfl
  · simpa [sentIn_concat, Effect.sent?, Relay.consume] using h.task_eq
  · rw [stageIn_concat]
    exact h.stage_eq
  · simpa [keptIn_concat, Effect.kept?, Relay.consume] using h.returned_sublist

private theorem serve (call : Call) :
    Reflects options task (effects ++ [call.effect relay.terminal])
      (returned ++ (relay.answer? call).toList) (relay.serve call) := by
  cases call with
  | consume => exact h.consume
  | emit pair =>
      rw [answer?_eq_none (by simp), Option.toList_none, List.append_nil]
      exact h.emit pair
  | enter entered terminal =>
      rw [answer?_eq_none (by simp), Option.toList_none, List.append_nil]
      exact h.enter entered terminal
  | perform action =>
      rw [answer?_eq_none (by simp), Option.toList_none, List.append_nil]
      cases action with
      | write pair =>
          cases hterminal : relay.terminal with
          | true =>
              rw [Relay.serve, perform_eq_forward (.inl hterminal)]
              exact h.forward (.write pair)
          | false =>
              rw [Relay.serve, show relay.perform (.write pair) =
                relay.emit pair by
                simp [perform, hterminal]]
              exact h.emit pair
      | writeNamed | count | setStatus | progress => exact h.forward _

private theorem serveAll (calls : List Call) :
    Reflects options task (effects ++ Relay.effects relay.terminal calls)
      (returned ++ relay.answers calls) (relay.serveAll calls) := by
  induction calls generalizing effects returned relay with
  | nil => simpa [Relay.effects, answers, Relay.serveAll] using h
  | cons call rest ih =>
      have hnext := ih (h.serve call)
      rw [terminal_serve, List.append_assoc, List.append_assoc] at hnext
      exact hnext

end Reflects

/-! ## The law -/

/-- After any calls a relay holds a pair just if one was kept since the last
taking; it is the last of those, and all of them are counted. Taking gives that
pair, and taking again gives nothing; the pairs given back are among those kept,
in order and no kept one twice. All else has reached the task in order, by steps
that change nothing but the task, and a stage that is entered brings its options
and its flag alone. -/
theorem holds_last_pending (options : Options) (task : Task)
    (calls : List Call) :
    let relay := (opened options task).serveAll calls
    let history := effects false calls
    (relay.slot.isSome = true ↔ pendingIn history ≠ []) ∧
    relay.slot = (pendingIn history).getLast? ∧
    relay.emitted = (pendingIn history).length ∧
    relay.consume.1 = (pendingIn history).getLast? ∧
    relay.consume.2.consume.1 = none ∧
    ((opened options task).answers calls).Sublist (keptIn history) ∧
    relay.task = task.performAll (sentIn history) ∧
    (∀ action, relay.terminal = true ∨ (∀ pair, action ≠ .write pair) →
      relay.perform action = { relay with task := relay.task.perform action }) ∧
    (relay.options, relay.terminal) = stageIn options history ∧
    ∀ entered terminal, relay.enter entered terminal =
      { relay with options := entered, terminal } := by
  intro relay history
  obtain ⟨hslot, hemitted, htask, hstage, hreturned⟩ :=
    (reflects_opened options task).serveAll calls
  refine ⟨?_, hslot, hemitted, hslot, rfl,
    (List.sublist_append_left ..).trans hreturned, htask,
    fun action haction => perform_eq_forward haction, hstage, fun _ _ => rfl⟩
  rw [show relay.slot = (pendingIn history).getLast? from hslot,
    List.getLast?_isSome]

end JobChain.Relay
