import JobChain.Proofs.Fusion

/-!
# The transit of a record

A record goes through fused stages from the first on, at each as the pair that
the stage before has written, until a stage fails, writes more than one pair or
writes none. Only the last stage may write as often as it likes. The stages
behind the one that ends the transit are not called, and unless that is the last
stage the main output of the task stays as it was.
-/

namespace JobChain

inductive Ending where
  | failed (failure : Failure)
  | crowded (count : Nat)
  | dropped
  | through

def Ending.error? (step : Nat) : Ending → Option ChainError
  | .failed failure => some (.stage step failure)
  | .crowded count => some (.fusion step count)
  | .dropped | .through => none

/-- A record's transit through stages: the replies of those that it reaches, and
how it ends. -/
inductive Transit : FusedRun → Pair → List StageReply → Ending → Prop where
  | nowhere (pair : Pair) : Transit [] pair [] .through
  | fails {stage : FusedStage} {pair : Pair}
      {failure : Failure} (rest : FusedRun)
      (hfailure : (stage.onMap pair).failure? = some failure) :
      Transit (stage :: rest) pair [stage.onMap pair] (.failed failure)
  | crowds {stage : FusedStage} {rest : FusedRun} {pair : Pair}
      (hfailure : (stage.onMap pair).failure? = none) (hrest : rest ≠ [])
      (hmany : 1 < (written (stage.onMap pair).actions).length) :
      Transit (stage :: rest) pair [stage.onMap pair]
        (.crowded (written (stage.onMap pair).actions).length)
  | drops {stage : FusedStage} {rest : FusedRun} {pair : Pair}
      (hfailure : (stage.onMap pair).failure? = none) (hrest : rest ≠ [])
      (hnone : written (stage.onMap pair).actions = []) :
      Transit (stage :: rest) pair [stage.onMap pair] .dropped
  | arrives {stage : FusedStage}
      {pair : Pair} (hfailure : (stage.onMap pair).failure? = none) :
      Transit [stage] pair [stage.onMap pair] .through
  | goesOn {stage : FusedStage} {rest : FusedRun} {pair next : Pair}
      {replies : List StageReply}
      {ending : Ending} (hfailure : (stage.onMap pair).failure? = none)
      (hrest : rest ≠ []) (hone : written (stage.onMap pair).actions = [next])
      (hnext : Transit rest next replies ending) :
      Transit (stage :: rest) pair (stage.onMap pair :: replies) ending

def forwarded : FusedRun → List StageReply → List Action
  | [_], reply :: _ => reply.actions
  | _ :: rest, reply :: replies => aside reply.actions ++ forwarded rest replies
  | _, _ => []

private theorem forwarded_cons {rest : FusedRun} (hrest : rest ≠ [])
    (stage : FusedStage) (reply : StageReply) (replies : List StageReply) :
    forwarded (stage :: rest) (reply :: replies) =
      aside reply.actions ++ forwarded rest replies := by
  cases rest with
  | nil => exact absurd rfl hrest
  | cons next others => rfl

@[simp] theorem forwarded_nil (run : FusedRun) : forwarded run [] = [] := by
  match run with
  | [] | [_] | _ :: _ :: _ => rfl

namespace Transit

private theorem exists_transit (run : FusedRun) (pair : Pair) :
    ∃ replies ending, Transit run pair replies ending := by
  induction run generalizing pair with
  | nil => exact ⟨_, _, .nowhere pair⟩
  | cons stage rest ih =>
      cases hfailure : (stage.onMap pair).failure? with
      | some failure => exact ⟨_, _, .fails rest hfailure⟩
      | none =>
          by_cases hrest : rest = []
          · subst hrest
            exact ⟨_, _, .arrives hfailure⟩
          · match hwritten : written (stage.onMap pair).actions with
            | [] => exact ⟨_, _, .drops hfailure hrest hwritten⟩
            | [next] =>
                obtain ⟨replies, ending, hnext⟩ := ih next
                exact ⟨_, _, .goesOn hfailure hrest hwritten hnext⟩
            | _ :: _ :: _ =>
                exact ⟨_, _, .crowds hfailure hrest (by simp [hwritten])⟩

variable {run : FusedRun} {pair : Pair} {replies : List StageReply}
  {ending : Ending}

theorem length_le
    (h : Transit run pair replies ending) : replies.length ≤ run.length := by
  induction h with
  | nowhere => exact Nat.le_refl _
  | fails | crowds | drops | arrives => simp
  | goesOn _ _ _ _ ih => simpa using ih

private theorem length_pos (h : Transit run pair replies ending)
    (hne : run ≠ []) : 0 < replies.length := by
  cases h with
  | nowhere => exact absurd rfl hne
  | fails | crowds | drops | arrives | goesOn => simp

theorem length_eq
    (h : Transit run pair replies .through) : replies.length = run.length := by
  generalize hending : Ending.through = ending at h
  induction h with
  | nowhere | arrives => rfl
  | fails | crowds | drops => cases hending
  | goesOn _ _ _ _ ih => simpa using ih hending

private theorem length_lt (h : Transit run pair replies ending)
    (hending : ending = .dropped ∨ ∃ count, ending = .crowded count) :
    replies.length < run.length := by
  induction h with
  | nowhere | fails | arrives => simp at hending
  | crowds _ hrest _ | drops _ hrest _ =>
      simpa [List.length_pos_iff] using hrest
  | goesOn _ _ _ _ ih => simpa using ih hending

private theorem written_forwarded_of_lt (h : Transit run pair replies ending)
    (hlt : replies.length < run.length) :
    written (forwarded run replies) = [] := by
  induction h with
  | nowhere | arrives => simp at hlt
  | fails rest _ =>
      have hrest : rest ≠ [] := by
        rintro rfl
        simp at hlt
      simp [forwarded_cons hrest]
  | crowds _ hrest _ | drops _ hrest _ => simp [forwarded_cons hrest]
  | goesOn _ hrest _ _ ih => simpa [forwarded_cons hrest] using ih (by simpa using hlt)

private theorem written_forwarded_of_eq (h : Transit run pair replies ending)
    (heq : replies.length = run.length) {last : StageReply}
    (hlast : replies.getLast? = some last) :
    written (forwarded run replies) = written last.actions := by
  induction h with
  | nowhere => simp at hlast
  | arrives =>
      obtain rfl := by simpa using hlast
      rfl
  | fails rest _ =>
      obtain rfl : rest = [] := by simpa using heq.symm
      obtain rfl := by simpa using hlast
      rfl
  | crowds _ hrest _ | drops _ hrest _ =>
      exact absurd (by simpa using heq.symm) hrest
  | goesOn _ hrest _ hnext ih =>
      have hpos := hnext.length_pos hrest
      have hlast' :=
        List.getLast?_cons_of_ne_nil (List.length_pos_iff.1 hpos) ▸ hlast
      simpa [forwarded_cons hrest] using ih (by simpa using heq) hlast'

end Transit

namespace FusedRun

open Transit

private theorem pump_eq_of_transit {run : FusedRun} (hne : run ≠ [])
    {pair : Pair} {replies : List StageReply} {ending : Ending}
    (h : Transit run pair replies ending) (step : Nat) {relay : Relay Task}
    (hslot : relay.slot = some pair) : ∃ left : Relay Task,
      pump step run relay = (ending.error? (step + (replies.length - 1)),
        replies.map StageReply.stage ++ run.drop replies.length, left) ∧
      left.task = relay.task.performAll (forwarded run replies) ∧
      (ending.error? (step + (replies.length - 1)) = none →
        left.slot = none) := by
  induction h generalizing step relay with
  | nowhere => exact absurd rfl hne
  | @fails stage pair failure rest hfailure =>
      cases rest with
      | nil =>
          simp [pump, Relay.consume, hslot, Relay.enter, FusedStage.map_eq,
            hfailure, Relay.performAll_of_terminal, Ending.error?, forwarded]
      | cons next others =>
          simp [pump, Relay.consume, hslot, Relay.enter, FusedStage.map_eq,
            hfailure, Relay.performAll_of_not_terminal, Ending.error?,
            forwarded]
  | @crowds stage rest pair hfailure hrest hmany =>
      have hempty : rest.isEmpty = false := by simpa using hrest
      simp [pump, Relay.consume, hslot, Relay.enter, FusedStage.map_eq,
        hfailure, hempty, hmany, Relay.performAll_of_not_terminal,
        Ending.error?, forwarded_cons hrest]
  | @drops stage rest pair hfailure hrest hnone =>
      obtain ⟨next, others, rfl⟩ := List.exists_cons_of_ne_nil hrest
      simp [pump, Relay.consume, hslot, Relay.enter, FusedStage.map_eq,
        hfailure, hnone, Relay.performAll_of_not_terminal, Ending.error?,
        forwarded]
  | @arrives stage pair hfailure =>
      simp [pump, Relay.consume, hslot, Relay.enter, FusedStage.map_eq,
        hfailure, Relay.performAll_of_terminal, Ending.error?, forwarded]
  | @goesOn stage rest pair next replies ending hfailure hrest hone hnext ih =>
      have hempty : rest.isEmpty = false := by simpa using hrest
      have hpos := hnext.length_pos hrest
      have hstep : step + 1 + (replies.length - 1) = step +
          replies.length := by omega
      let handed : Relay Task :=
        { relay with
          slot := some next, emitted := 1, terminal := false, options :=
            stage.options
          task := relay.task.performAll (aside (stage.onMap pair).actions) }
      have hslot' : handed.slot = some next := rfl
      obtain ⟨left, heq, htask, hleft⟩ := ih hrest (step + 1) hslot'
      rw [hstep] at heq hleft
      refine ⟨left, ?_, ?_, hleft⟩
      · simp [pump, Relay.consume, hslot, Relay.enter, FusedStage.map_eq,
          hfailure, hempty, hone, Relay.performAll_of_not_terminal, handed, heq]
      · rw [htask, forwarded_cons hrest, Task.performAll_append]

private theorem map_eq_of_transit {run : FusedRun} {pair : Pair}
    {replies : List StageReply} {ending : Ending}
    (h : Transit run pair replies ending) (task : Task) :
    run.map pair task = (ending.error? (replies.length - 1),
      replies.map StageReply.stage ++ run.drop replies.length,
      task.performAll (forwarded run replies)) := by
  cases run with
  | nil =>
      cases h
      rfl
  | cons stage rest =>
      have hslot : (Relay.emit { options := stage.options, task } pair).slot =
          some pair := rfl
      obtain ⟨left, heq, htask, -⟩ :=
        pump_eq_of_transit (List.cons_ne_nil _ _) h 0 hslot
      rw [Nat.zero_add] at heq
      simp only [map, heq, htask]
      rfl

/-- A record goes the one transit that the replies of the stages make for it.
The stages that it reaches stand as their replies leave them and all others as
before, the main output grows by what the last stage of the run writes if the
transit gets there and otherwise not at all, and whatever a relay held before is
neither passed on nor kept. -/
theorem map_passes (run : FusedRun) (pair : Pair) (task : Task) :
    ∃ replies ending after, Transit run pair replies ending ∧
      run.map pair task = (ending.error? (replies.length - 1),
        replies.map StageReply.stage ++ run.drop replies.length, after) ∧
      after = task.performAll (forwarded run replies) ∧
      (replies.length < run.length → after.emitted = task.emitted) ∧
      (∀ last, replies.length = run.length → replies.getLast? = some last →
        after.emitted.toList = task.emitted.toList ++ written last.actions) ∧
      (ending = .through → replies.length = run.length) ∧
      ((ending = .dropped ∨ ∃ count, ending = .crowded count) →
        replies.length < run.length) ∧
      ∀ old : Relay Task, old.task = task → run ≠ [] → ∃ left : Relay Task,
        pump 0 run (old.emit pair) = (ending.error? (replies.length - 1),
          replies.map StageReply.stage ++ run.drop replies.length, left) ∧
        left.task = after ∧
        (ending.error? (replies.length - 1) = none → left.slot = none) := by
  obtain ⟨replies, ending, h⟩ := exists_transit run pair
  refine ⟨replies, ending, _, h, map_eq_of_transit h task, rfl, fun hlt => ?_,
    fun last heq hlast => ?_, ?_, h.length_lt, fun old htask hne => ?_⟩
  · apply Array.ext'
    rw [Task.emitted_performAll, h.written_forwarded_of_lt hlt, List.append_nil]
  · rw [Task.emitted_performAll, h.written_forwarded_of_eq heq hlast]
  · rintro rfl
    exact h.length_eq
  · have hold : (old.emit pair).slot = some pair := rfl
    obtain ⟨left, heq, hleft, hslot⟩ := pump_eq_of_transit hne h 0 hold
    rw [Nat.zero_add] at heq hslot
    exact ⟨left, heq, by rw [hleft, ← htask]; rfl, hslot⟩

example :
    let (error?, _, task) :=
      (ofFunctions [doubled, everyOther] .empty).map
        ⟨.null, .ofNat 7⟩ ({} : Task)
    error? = some (.fusion 0 2) ∧ task.emitted = #[] ∧ task.progress = 1 ∧
      task.namedList "sample" = [⟨.null, .ofNat 7⟩] := by
  decide

end FusedRun

end JobChain
