import JobChain.FusedRun
import JobChain.Proofs.TaskEffects

/-!
# Records through the stages of a run

A record goes through all stages of a fused run before the next one is looked
at. As long as no call fails and no stage but the last writes twice for one
call, what comes of it is what the stages do one behind another: the calls of
the first, and those of the others on what it has written.
-/

namespace JobChain

/-! ## One stage alone -/

/-- A reply to a call, and the stage as the call leaves it. -/
structure StageReply where
  actions : List Action
  failure? : Option Failure
  stage : FusedStage

namespace FusedStage

def replyOf (stage : FusedStage)
    (reply : Reply stage.function.State) : StageReply :=
  { actions := reply.actions
    failure? := reply.failure?
    stage := { stage with state := reply.state } }

def onSetup (stage : FusedStage) : StageReply :=
  stage.replyOf (stage.function.setup stage.options stage.state)

def onMap (stage : FusedStage) (pair : Pair) : StageReply :=
  stage.replyOf (stage.function.map stage.options stage.state pair)

def onCleanup (stage : FusedStage) : StageReply :=
  stage.replyOf (stage.function.cleanup stage.options stage.state)

def replies : FusedStage → List Pair → List StageReply
  | _, [] => []
  | stage, pair :: rest =>
      stage.onMap pair :: replies (stage.onMap pair).stage rest

def after : FusedStage → List Pair → FusedStage
  | stage, [] => stage
  | stage, pair :: rest => after (stage.onMap pair).stage rest

end FusedStage

/-! ## Relays -/

variable {τ : Type} [Context τ]

namespace Relay

theorem performAll_of_terminal {relay : Relay τ} (h : relay.terminal = true)
    (actions : List Action) :
    relay.performAll actions =
      { relay with task := Context.performAll relay.task actions } := by
  induction actions generalizing relay with
  | nil => rfl
  | cons action rest ih =>
      have hstep : relay.perform action =
          { relay with task := Context.perform relay.task action } := by
        cases action <;> simp [perform, forward, h]
      change (relay.perform action).performAll rest = _
      rw [hstep, @ih { relay with task := Context.perform relay.task action } h]
      rfl

/-- A relay that is not terminal keeps the last pair, counts them all and lets
the rest through. -/
theorem performAll_of_not_terminal {relay : Relay τ}
    (h : relay.terminal = false) (actions : List Action) :
    relay.performAll actions =
      { relay with
        slot := (written actions).getLast?.or relay.slot
        emitted := relay.emitted + (written actions).length
        task := Context.performAll relay.task (aside actions) } := by
  induction actions generalizing relay with
  | nil => rfl
  | cons action rest ih =>
      change (relay.perform action).performAll rest = _
      cases action with
      | write pair =>
          rw [show relay.perform (.write pair) =
            relay.emit pair by simp [perform, h], @ih (relay.emit pair) h]
          simp only [emit, written_cons, Action.written?, Option.toList_some,
            List.singleton_append, List.length_cons, aside, Action.isWrite]
          congr 1
          · cases hrest : written rest <;> simp [List.getLast?_cons]
          · omega
      | writeNamed | count | setStatus | progress =>
          rw [perform, @ih (relay.forward _) h] <;>
            simp [forward, aside, Action.isWrite, Action.written?]

end Relay

namespace FusedStage

theorem map_eq (stage : FusedStage) (pair : Pair) {relay : Relay τ}
    (h : relay.options = stage.options) :
    stage.map pair relay =
      ((stage.onMap pair).failure?, (stage.onMap pair).stage,
        relay.performAll (stage.onMap pair).actions) := by
  simp only [map, settle, onMap, replyOf, h]

theorem setup_eq (stage : FusedStage) {relay : Relay τ}
    (h : relay.options = stage.options) : stage.setup relay =
      (stage.onSetup.failure?, stage.onSetup.stage,
        relay.performAll stage.onSetup.actions) := by
  simp only [setup, settle, onSetup, replyOf, h]

theorem cleanup_eq (stage : FusedStage) {relay : Relay τ}
    (h : relay.options = stage.options) : stage.cleanup relay =
      (stage.onCleanup.failure?, stage.onCleanup.stage,
        relay.performAll stage.onCleanup.actions) := by
  simp only [cleanup, settle, onCleanup, replyOf, h]

end FusedStage

namespace FusedRun

/-! ## Records through all stages -/

def pass : FusedRun → Pair → FusedRun × List Action
  | [], _ => ([], [])
  | stage :: rest, pair =>
      let reply := stage.onMap pair
      if rest.isEmpty then ([reply.stage], reply.actions)
      else
        match written reply.actions with
        | [] => (reply.stage :: rest, aside reply.actions)
        | next :: _ =>
            (reply.stage :: (pass rest next).1, aside reply.actions ++
              (pass rest next).2)

/-- No stage that the record reaches fails, and none but the last writes
twice. -/
def Passes : FusedRun → Pair → Prop
  | [], _ => True
  | stage :: rest, pair =>
      let reply := stage.onMap pair
      reply.failure? = none ∧
        (rest ≠ [] →
          (written reply.actions).length ≤ 1 ∧ ∀ next ∈ written reply.actions,
          Passes rest next)

def passAll : FusedRun → List Pair → FusedRun × List Action
  | run, [] => (run, [])
  | run, pair :: rest =>
      ((passAll (pass run pair).1 rest).1,
        (pass run pair).2 ++ (passAll (pass run pair).1 rest).2)

def PassesAll : FusedRun → List Pair → Prop
  | _, [] => True
  | run, pair :: rest => Passes run pair ∧ PassesAll (pass run pair).1 rest

@[simp] theorem length_pass (run : FusedRun) (pair : Pair) :
    (pass run pair).1.length = run.length := by
  induction run generalizing pair with
  | nil => rfl
  | cons stage rest ih =>
      simp only [pass]
      split
      · rename_i hrest
        simp [List.isEmpty_iff.1 hrest]
      · split <;> simp [ih]

private theorem pass_ne_nil {run : FusedRun} (h : run ≠ [])
    (pair : Pair) : (pass run pair).1 ≠ [] := by
  simpa [← List.length_pos_iff] using h

@[simp] theorem length_passAll (run : FusedRun) (pairs : List Pair) :
    (passAll run pairs).1.length = run.length := by
  induction pairs generalizing run with
  | nil => rfl
  | cons pair rest ih => simp [passAll, ih]

private theorem passAll_append (run : FusedRun) (first second : List Pair) :
    passAll run (first ++ second) =
      ((passAll (passAll run first).1 second).1,
        (passAll run first).2 ++ (passAll (passAll run first).1 second).2) := by
  induction first generalizing run with
  | nil => simp [passAll]
  | cons pair rest ih => simp [passAll, ih]

private theorem passesAll_append {run : FusedRun} {first second : List Pair} :
    PassesAll run (first ++ second) ↔
      PassesAll run first ∧ PassesAll (passAll run first).1 second := by
  induction first generalizing run with
  | nil => simp [PassesAll, passAll]
  | cons pair rest ih => simp [PassesAll, passAll, ih, and_assoc]

private theorem pump_empty (step : Nat) (run : FusedRun) {relay : Relay τ}
    (h : relay.slot = none) : ∃ relay' :
    Relay τ, pump step run relay = (none, run, relay') ∧
    relay'.task = relay.task := by
  cases run <;> simp [pump, Relay.consume, h]

private theorem pump_eq_pass {run : FusedRun} (hne : run ≠ []) {pair : Pair}
    (h : Passes run pair) (step : Nat) {relay : Relay τ}
    (hslot : relay.slot = some pair) : ∃ relay' :
    Relay τ, pump step run relay = (none, (pass run pair).1, relay') ∧
      relay'.task = Context.performAll relay.task (pass run pair).2 := by
  induction run generalizing step pair relay with
  | nil => exact absurd rfl hne
  | cons stage rest ih =>
      obtain ⟨hfailure, hrest⟩ := h
      cases hempty : rest.isEmpty with
      | true =>
          obtain rfl := List.isEmpty_iff.1 hempty
          simp [pump, pass, Relay.consume, Relay.enter, hslot,
            FusedStage.map_eq, hfailure, Relay.performAll_of_terminal]
      | false =>
          have hne' : rest ≠ [] := fun heq => by simp [heq] at hempty
          obtain ⟨hone, hnext⟩ := hrest hne'
          simp only [pump, Relay.consume, hslot, Relay.enter, hempty,
            FusedStage.map_eq, hfailure, Relay.performAll_of_not_terminal,
            Nat.zero_add, Nat.not_lt.2 hone, if_false, pass,
            Bool.false_eq_true]
          cases hwritten : written (stage.onMap pair).actions with
          | nil =>
              have hslot' : Relay.slot { relay with
                  slot := none, emitted := 0, terminal := false, options :=
                    stage.options
                  task := Context.performAll relay.task (aside (stage.onMap pair).actions) } = none := rfl
              obtain ⟨relay', heq, htask⟩ := pump_empty (step + 1) rest hslot'
              refine ⟨relay', ?_, htask⟩
              simp [heq]
          | cons next others =>
              have hothers : others = [] := by
                simpa [hwritten] using hone
              subst hothers
              have hslot' : Relay.slot { relay with
                  slot := some next, emitted := 1, terminal := false, options :=
                    stage.options
                  task := Context.performAll relay.task (aside (stage.onMap pair).actions) } =
                  some next := rfl
              obtain ⟨relay', heq, htask⟩ :=
                ih hne' (hnext next (by simp [hwritten])) (step + 1) hslot'
              refine ⟨relay', ?_, ?_⟩
              · simp [heq]
              · rw [htask, Context.performAll_append]

private theorem pump_eq_passAll {run : FusedRun} (hne : run ≠ [])
    {pairs : List Pair} (hone : pairs.length ≤ 1) (h : PassesAll run pairs)
    (step : Nat) {relay : Relay τ} (hslot : relay.slot = pairs.getLast?) :
    ∃ relay' : Relay τ, pump step run relay = (none, (passAll run pairs).1,
      relay') ∧
      relay'.task = Context.performAll relay.task (passAll run pairs).2 := by
  match pairs, hone with
  | [], _ => exact pump_empty step run hslot
  | [pair], _ => simpa [passAll] using pump_eq_pass hne h.1 step hslot

theorem map_eq_pass {run : FusedRun} (hne : run ≠ []) {pair : Pair}
    (h : Passes run pair) (task : τ) :
    run.map pair task = (none, (pass run pair).1,
      Context.performAll task (pass run pair).2) := by
  cases run with
  | nil => exact absurd rfl hne
  | cons stage rest =>
      have hslot : (Relay.emit { options := stage.options, task } pair).slot =
          some pair := rfl
      obtain ⟨relay', heq, htask⟩ := pump_eq_pass hne h 0 hslot
      simp only [map, heq, htask]
      rfl

theorem mapAll_eq_passAll {run : FusedRun} (hne : run ≠ []) {pairs : List Pair}
    (h : PassesAll run pairs) :
    ∃ actions,
      (∀ {τ : Type} [Context τ] (task : τ), run.mapAll pairs task =
        (none, (passAll run pairs).1, Context.performAll task actions)) ∧
      Alike actions ((passAll run pairs).2 ++
        List.replicate pairs.length .progress) := by
  induction pairs generalizing run with
  | nil => exact ⟨[], fun _ => rfl, .refl _⟩
  | cons pair rest ih =>
      obtain ⟨actions, heq, halike⟩ := ih (pass_ne_nil hne pair) h.2
      refine ⟨(pass run pair).2 ++ [.progress] ++ actions, fun task => ?_, ?_⟩
      · simp only [mapAll, map_eq_pass hne h.1, heq, passAll,
          Context.performAll_append]
        rfl
      · have htick : Alike ([.progress] ++ (passAll (pass run pair).1 rest).2)
            ((passAll (pass run pair).1 rest).2 ++ [.progress]) :=
          ⟨by simp [Action.written?], List.perm_append_comm⟩
        have hlater : Alike ([.progress] ++ actions)
            ((passAll (pass run pair).1 rest).2 ++
              List.replicate (rest.length + 1) .progress) := by
          refine (Alike.append (.refl [.progress]) halike).trans ?_
          simpa [List.replicate_succ] using
            htick.append (.refl (List.replicate rest.length .progress))
        simpa [passAll] using (Alike.refl (pass run pair).2).append hlater

/-! ## The first stage and those behind it -/

end FusedRun

namespace FusedStage

def work (stage : FusedStage) (pairs : List Pair) : List Action :=
  (stage.replies pairs).flatMap StageReply.actions ++
    (stage.after pairs).onCleanup.actions

end FusedStage

namespace FusedRun

private theorem pass_cons {stage : FusedStage} {rest : FusedRun}
    (hne : rest ≠ []) {pair : Pair}
    (hone : (written (stage.onMap pair).actions).length ≤ 1) :
    pass (stage :: rest) pair =
      ((stage.onMap pair).stage ::
        (passAll rest (written (stage.onMap pair).actions)).1,
        aside (stage.onMap pair).actions ++
          (passAll rest (written (stage.onMap pair).actions)).2) := by
  have hempty : rest.isEmpty = false := by simpa using hne
  match hwritten : written (stage.onMap pair).actions, hone with
  | [], _ => simp [pass, hempty, hwritten, passAll]
  | [next], _ => simp [pass, hempty, hwritten, passAll]

/-- Records that pass through some stages pass through the first of them, and
what that one writes passes through the others. -/
theorem passAll_cons {stage : FusedStage} {rest : FusedRun} (hne : rest ≠ [])
    {pairs : List Pair}
    (hone : ∀ reply ∈ stage.replies pairs, (written reply.actions).length ≤ 1) :
    let actions := (stage.replies pairs).flatMap StageReply.actions
    (passAll (stage :: rest) pairs).1 = stage.after pairs ::
    (passAll rest (written actions)).1 ∧
      Alike (passAll (stage :: rest) pairs).2
        (aside actions ++ (passAll rest (written actions)).2) := by
  induction pairs generalizing stage rest with
  | nil => exact ⟨rfl, .refl _⟩
  | cons pair others ih =>
      have hfirst := pass_cons hne (hone _ (List.mem_cons_self ..))
      have hne' : (passAll rest (written (stage.onMap pair).actions)).1 ≠
          [] := by
        simpa [← List.length_pos_iff] using hne
      obtain ⟨hrun, halike⟩ := ih hne' fun reply hreply =>
        hone _ (List.mem_cons_of_mem _ hreply)
      simp only [FusedStage.replies, List.flatMap_cons, written_append,
        aside_append, passAll_append, passAll, hfirst, FusedStage.after]
      refine ⟨hrun, ?_⟩
      have hswap :
          Alike ((passAll rest (written (stage.onMap pair).actions)).2 ++
            aside
              (((stage.onMap pair).stage.replies others).flatMap
                StageReply.actions))
          (aside
            (((stage.onMap pair).stage.replies others).flatMap
              StageReply.actions) ++
            (passAll rest (written (stage.onMap pair).actions)).2) :=
        .swap (written_aside _)
      have hlater := (Alike.refl (aside (stage.onMap pair).actions)).append
        (((Alike.refl _).append halike).trans <| by
          simpa using hswap.append (.refl _))
      simpa using hlater

private theorem passesAll_cons {stage : FusedStage} {rest : FusedRun}
    (hne : rest ≠ []) {pairs : List Pair}
    (hsucceeds : ∀ reply ∈ stage.replies pairs, reply.failure? = none)
    (hone : ∀ reply ∈ stage.replies pairs, (written reply.actions).length ≤ 1)
    (hrest : PassesAll rest
      (written ((stage.replies pairs).flatMap StageReply.actions))) :
    PassesAll (stage :: rest) pairs := by
  induction pairs generalizing stage rest with
  | nil => trivial
  | cons pair others ih =>
      simp only [FusedStage.replies, List.forall_mem_cons] at hsucceeds hone
      simp only [FusedStage.replies, List.flatMap_cons, written_append,
        passesAll_append] at hrest
      refine ⟨⟨hsucceeds.1, fun _ => ⟨hone.1, fun next hnext => ?_⟩⟩, ?_⟩
      · match hwritten : written (stage.onMap pair).actions, hone.1 with
        | [only], _ =>
            obtain rfl : next = only := by simpa [hwritten] using hnext
            exact (hwritten ▸ hrest.1).1
        | [], _ => simp [hwritten] at hnext
      · rw [pass_cons hne hone.1]
        refine ih ?_ hsucceeds.2 hone.2 hrest.2
        simpa [← List.length_pos_iff] using hne

private theorem passAll_singleton (stage : FusedStage) (pairs : List Pair) :
    passAll [stage] pairs =
      ([stage.after pairs],
        (stage.replies pairs).flatMap StageReply.actions) := by
  induction pairs generalizing stage with
  | nil => rfl
  | cons pair rest ih =>
      simp [passAll, pass, ih, FusedStage.after, FusedStage.replies]

private theorem passesAll_singleton {stage : FusedStage} {pairs : List Pair}
    (h : ∀ reply ∈ stage.replies pairs, reply.failure? = none) :
    PassesAll [stage] pairs := by
  induction pairs generalizing stage with
  | nil => trivial
  | cons pair rest ih =>
      simp only [FusedStage.replies, List.forall_mem_cons] at h
      refine ⟨⟨h.1, fun hne => absurd rfl hne⟩, ?_⟩
      simpa [pass] using ih h.2

/-! ## From the set up to the end -/

/-- Stages that are set up and then do not fail; each but the last writes at
most once a call. -/
def Smooth : FusedRun → List Pair → Prop
  | [], _ => True
  | stage :: rest, pairs =>
      (∀ reply ∈ stage.replies pairs, reply.failure? = none) ∧
        (stage.after pairs).onCleanup.failure? = none ∧
        (rest ≠ [] →
          (∀ reply ∈ stage.replies pairs, (written reply.actions).length ≤ 1) ∧
            (written (stage.after pairs).onCleanup.actions).length ≤ 1) ∧
        Smooth rest (written (stage.work pairs))

def ends : FusedRun → List Pair → FusedRun
  | [], _ => []
  | stage :: rest, pairs =>
      (stage.after pairs).onCleanup.stage ::
        ends rest (written (stage.work pairs))

def jointWork : FusedRun → List Pair → List Action
  | [], _ => []
  | stage :: rest, pairs =>
      if rest.isEmpty then stage.work pairs
      else aside (stage.work pairs) ++
        jointWork rest (written (stage.work pairs))

theorem Smooth.passesAll {run : FusedRun} {pairs : List Pair}
    (h : Smooth run pairs) : PassesAll run pairs := by
  induction run generalizing pairs with
  | nil =>
      induction pairs with
      | nil => trivial
      | cons pair rest ih => exact ⟨trivial, ih trivial⟩
  | cons stage rest ih =>
      obtain ⟨hsucceeds, -, hone, hrest⟩ := h
      by_cases hne : rest = []
      · subst hne
        exact passesAll_singleton hsucceeds
      · have hall := ih hrest
        rw [FusedStage.work, written_append, passesAll_append] at hall
        exact passesAll_cons hne hsucceeds (hone hne).1 hall.1

theorem cleanupFrom_cons {stage : FusedStage} {rest : FusedRun}
    (hne : rest ≠ []) (hfailure : stage.onCleanup.failure? = none)
    (hone : (written stage.onCleanup.actions).length ≤ 1)
    (hrest : PassesAll rest (written stage.onCleanup.actions))
    (count step : Nat) (task : τ) :
    let passed := passAll rest (written stage.onCleanup.actions)
    let closed := cleanupFrom count (step + 1) passed.1
      (Context.performAll task (aside stage.onCleanup.actions ++ passed.2))
    cleanupFrom (count + 1) step (stage :: rest) task =
      (closed.1, stage.onCleanup.stage :: closed.2.1, closed.2.2) := by
  have hempty : rest.isEmpty = false := by simpa using hne
  have hslot : Relay.slot {
      slot := (written stage.onCleanup.actions).getLast?
      emitted := (written stage.onCleanup.actions).length
      options := stage.options
      task := Context.performAll task (aside stage.onCleanup.actions) } =
      (written stage.onCleanup.actions).getLast? := rfl
  obtain ⟨relay', heq, htask⟩ := pump_eq_passAll hne hone hrest (step + 1) hslot
  simp only [cleanupFrom, relayFor, FusedStage.cleanup_eq, hfailure, hempty,
    Relay.performAll_of_not_terminal, Nat.zero_add, Nat.not_lt.2 hone, if_false,
    Option.or_none, heq, htask, Context.performAll_append]

theorem cleanupFrom_singleton {stage : FusedStage}
    (hfailure : stage.onCleanup.failure? = none) (count step : Nat) (task : τ) :
    cleanupFrom (count + 1) step [stage] task =
      (none, [stage.onCleanup.stage],
        Context.performAll task stage.onCleanup.actions) := by
  cases count <;>
    simp [cleanupFrom, relayFor, FusedStage.cleanup_eq, hfailure,
      Relay.performAll_of_terminal, pump, Relay.consume]

theorem cleanupFrom_passAll {stage : FusedStage} {rest : FusedRun}
    {pairs : List Pair} (h : Smooth (stage :: rest) pairs) (step : Nat) :
    ∃ actions,
      (∀ {τ : Type} [Context τ] (task : τ),
        cleanupFrom (rest.length + 1) step
          (passAll (stage :: rest) pairs).1 task =
          (none, ends (stage :: rest) pairs, Context.performAll task actions)) ∧
      Alike ((passAll (stage :: rest) pairs).2 ++ actions)
        (jointWork (stage :: rest) pairs) := by
  induction rest generalizing stage pairs step with
  | nil =>
      refine ⟨(stage.after pairs).onCleanup.actions, fun task => ?_, ?_⟩
      · rw [passAll_singleton, cleanupFrom_singleton h.2.1]
        rfl
      · simp [passAll_singleton, jointWork, FusedStage.work, Alike.refl]
  | cons next rest ih =>
      obtain ⟨-, hfailure, hone, hrest⟩ := h
      have hne : next :: rest ≠ [] := by simp
      obtain ⟨hmaps, hclosing⟩ := hone hne
      obtain ⟨hrun, halike⟩ := passAll_cons hne hmaps
      have hall := hrest.passesAll
      rw [FusedStage.work, written_append, passesAll_append] at hall
      have hstep {τ : Type} [Context τ] (task : τ) :=
        @cleanupFrom_cons τ _ (stage.after pairs)
          (passAll (next :: rest)
            (written ((stage.replies pairs).flatMap StageReply.actions))).1
        (by simp [← List.length_pos_iff]) hfailure hclosing hall.2
        (rest.length + 1) step task
      generalize hmapped : (stage.replies pairs).flatMap StageReply.actions =
        mapped at *
      generalize hclosed : (stage.after pairs).onCleanup = closed at *
      have hwork : stage.work pairs = mapped ++ closed.actions := by
        rw [FusedStage.work, hmapped, hclosed]
      generalize hpassed : passAll (passAll (next :: rest) (written mapped)).1
        (written closed.actions) = passed at *
      have hboth : passAll (next :: rest) (written (stage.work pairs)) =
          (passed.1, (passAll (next :: rest) (written mapped)).2 ++
            passed.2) := by
        rw [hwork, written_append, passAll_append, hpassed]
      obtain ⟨later, hlater, hjoint⟩ := ih hrest (step + 1)
      rw [hboth] at hlater hjoint
      refine ⟨aside closed.actions ++ passed.2 ++ later, fun task => ?_, ?_⟩
      · have hends : ends (stage :: next :: rest) pairs =
            closed.stage ::
            ends (next :: rest) (written (stage.work pairs)) := by
          rw [ends, hclosed]
        rw [hrun, List.length_cons, hstep, hlater, hends,
          ← Context.performAll_append]
      · have hswap : Alike
            ((passAll (next :: rest) (written mapped)).2 ++
              aside closed.actions)
            (aside closed.actions ++
              (passAll (next :: rest) (written mapped)).2) :=
          .swap (written_aside _)
        have hjoint' : Alike
            ((passAll (next :: rest) (written mapped)).2 ++
              aside closed.actions ++ passed.2 ++ later)
            (aside closed.actions ++
              jointWork (next :: rest) (written (stage.work pairs))) := by
          refine ((hswap.append (.refl passed.2)).append (.refl later)).trans ?_
          simpa using (Alike.refl (aside closed.actions)).append hjoint
        have hstart :=
          halike.append (.refl (aside closed.actions ++ passed.2 ++ later))
        refine hstart.trans ?_
        simpa [jointWork, hwork]
          using (Alike.refl (aside mapped)).append hjoint'

def ready : FusedRun → FusedRun
  | [] => []
  | stage :: rest => stage.onSetup.stage :: ready rest

theorem setupFrom_eq {run : FusedRun}
    (hsucceeds : ∀ stage ∈ run, stage.onSetup.failure? = none)
    (hsilent : ∀ stage ∈ run.dropLast, written stage.onSetup.actions = [])
    (step : Nat) (task : τ) :
    setupFrom step run task =
      (none, ready run,
        Context.performAll task (run.flatMap fun stage =>
          stage.onSetup.actions)) := by
  induction run generalizing step task with
  | nil => rfl
  | cons stage rest ih =>
      have hfailure := hsucceeds stage (by simp)
      cases rest with
      | nil =>
          simp [setupFrom, relayFor, FusedStage.setup_eq, hfailure,
            Relay.performAll_of_terminal, ready]
      | cons next rest =>
          have hrest :=
            ih (fun stage hstage => hsucceeds stage (by simp [hstage]))
              (fun stage hstage => hsilent stage (by simp [hstage])) (step + 1)
            (Context.performAll task stage.onSetup.actions)
          have haside :=
            aside_eq_self_of_written_eq_nil (hsilent stage (by simp))
          rw [setupFrom]
          simp only [relayFor, List.isEmpty_cons, FusedStage.setup_eq, hfailure,
            Relay.performAll_of_not_terminal, haside, hrest]
          simp [Context.performAll_append, ready]

end FusedRun

end JobChain
