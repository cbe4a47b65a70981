import JobChain.Chain
import JobChain.Proofs.Plan.Growth

/-!
# Refused calls

Whether a call that appends a stage is refused depends on the call and the stage
alone. A call works on a copy of the plan, so a refusal leaves the chain as it
was, and where one stood makes no difference to the blocks that later stages
join.
-/

namespace JobChain

namespace Plan

variable {plan grown : Plan} {entry : Entry} {stage : Stage}

private theorem fits_of_enter
    (h : plan.enter entry stage = .ok grown) : entry.fits stage = true := by
  cases entry with
  | ofAnyKind => rfl
  | ofMap =>
      rw [enter, appendMap_eq] at h
      split at h
      · cases h
      · rename_i hkind
        simpa [Entry.fits] using hkind
  | ofMapReduce =>
      rw [enter, appendMapReduce_eq] at h
      split at h
      · assumption
      · cases h

theorem check_of_enter
    (h : plan.enter entry stage = .ok grown) : stage.check = .ok () := by
  cases hcheck : stage.check with
  | ok _ => rfl
  | error error =>
      cases entry with
      | ofAnyKind => simp [enter, append_eq, hcheck] at h
      | ofMap =>
          simp only [enter, appendMap_eq, append_eq, hcheck] at h
          split at h <;> cases h
      | ofMapReduce =>
          simp only [enter, appendMapReduce_eq, append_eq, hcheck] at h
          split at h <;> cases h

end Plan

namespace Chain

variable {chain : Chain} {entry : Plan.Entry} {stage : Stage}

def enter : Plan.Entry → Stage → Call
  | .ofAnyKind, stage => append stage
  | .ofMap, stage => appendMap stage
  | .ofMapReduce, stage => appendMapReduce stage

def makeCalls :
    List (Plan.Entry × Stage) → StateM Chain (List (Except ShapeError Unit))
  | [] => pure []
  | (entry, stage) :: rest => do
      let answer ← (enter entry stage).run
      let answers ← makeCalls rest
      pure (answer :: answers)

def successful : List (Plan.Entry × Stage) → List (Except ShapeError Unit) →
    List (Plan.Entry × Stage)
  | call :: calls, .ok () :: answers => call :: successful calls answers
  | _ :: calls, .error _ :: answers => successful calls answers
  | _, _ => []

def push (chain : Chain) (stage : Stage) : Chain :=
  { chain with plan := chain.plan.push stage }

/-! ## One call -/

theorem enter_run (entry : Plan.Entry) (stage : Stage) (chain : Chain) :
    enter entry stage chain =
    match chain.plan.enter entry stage with
    | .error error => (.error error, chain)
    | .ok plan => (.ok (), { chain with plan }) := by
  cases entry <;> exact onPlan_run _ chain

theorem enter_eq_push (hfits : entry.fits stage = true)
    (hcheck : stage.check = .ok ()) :
    enter entry stage chain = (.ok (), chain.push stage) := by
  rw [enter_run, Plan.enter_eq_push hcheck hfits]
  rfl

/-- What a call does: it is refused and leaves the chain alone, or it puts its
stage behind the others. -/
theorem enter_cases (entry : Plan.Entry) (stage : Stage) (chain : Chain) :
    ((entry.fits stage = false ∨ ∃ error, stage.check = .error error) ∧
      ∃ error, enter entry stage chain = (.error error, chain)) ∨
    (entry.fits stage = true ∧ stage.check = .ok () ∧
      enter entry stage chain = (.ok (), chain.push stage)) := by
  cases henter : chain.plan.enter entry stage with
  | error error =>
      have hrun := enter_run entry stage chain
      rw [henter] at hrun
      refine .inl ⟨?_, error, hrun⟩
      cases hfits : entry.fits stage with
      | false => exact .inl rfl
      | true =>
          cases hcheck : stage.check with
          | error cause => exact .inr ⟨cause, rfl⟩
          | ok _ =>
              rw [Plan.enter_eq_push hcheck hfits] at henter
              cases henter
  | ok plan =>
      have hfits := Plan.fits_of_enter henter
      have hcheck := Plan.check_of_enter henter
      exact .inr ⟨hfits, hcheck, enter_eq_push hfits hcheck⟩

private theorem enter_eq_error_iff :
    (∃ error, (enter entry stage chain).1 = .error error) ↔
    entry.fits stage = false ∨ ∃ error, stage.check = .error error := by
  rcases enter_cases entry stage chain with ⟨hwhy, error, henter⟩ | ⟨hfits,
    hcheck, henter⟩
  · rw [henter]
    exact iff_of_true ⟨error, rfl⟩ hwhy
  · rw [henter]
    refine iff_of_false (by simp) ?_
    simp [hfits, hcheck]

/-! ## All calls -/

theorem makeCalls_cons (entry : Plan.Entry) (stage : Stage)
    (rest : List (Plan.Entry × Stage)) (chain : Chain) :
    makeCalls ((entry, stage) :: rest) chain =
      ((enter entry stage chain).1 ::
        (makeCalls rest (enter entry stage chain).2).1,
        (makeCalls rest (enter entry stage chain).2).2) := rfl

private theorem makeCalls_answers (calls : List (Plan.Entry × Stage))
    (chain : Chain) :
    List.Forall₂ (fun call answer => (∃ error, answer = .error error) ↔
        call.1.fits call.2 = false ∨ ∃ error, call.2.check = .error error)
      calls (makeCalls calls chain).1 := by
  induction calls generalizing chain with
  | nil => exact .nil
  | cons call rest ih => exact .cons enter_eq_error_iff (ih _)

private theorem makeCalls_successful (calls : List (Plan.Entry × Stage))
    (chain : Chain) :
    let kept := successful calls (makeCalls calls chain).1
    makeCalls kept chain = (kept.map fun _ => .ok (),
      (makeCalls calls chain).2) := by
  induction calls generalizing chain with
  | nil => rfl
  | cons call rest ih =>
      obtain ⟨entry, stage⟩ := call
      rcases enter_cases entry stage chain
        with ⟨-, error, henter⟩ | ⟨-, -, henter⟩
      · rw [makeCalls_cons, henter]
        exact ih chain
      · rw [makeCalls_cons, henter]
        have hrest := ih (chain.push stage)
        simp only [successful, makeCalls_cons, henter, hrest, List.map_cons]

private theorem makeCalls_eq_foldl (calls : List (Plan.Entry × Stage))
    (chain : Chain) : (makeCalls calls chain).2 =
      ((successful calls (makeCalls calls chain).1).map Prod.snd).foldl push
        chain := by
  induction calls generalizing chain with
  | nil => rfl
  | cons call rest ih =>
      obtain ⟨entry, stage⟩ := call
      rcases enter_cases entry stage chain
        with ⟨-, error, henter⟩ | ⟨-, -, henter⟩
      · rw [makeCalls_cons, henter]
        exact ih chain
      · rw [makeCalls_cons, henter]
        exact ih (chain.push stage)

private theorem foldl_push (chain : Chain) (stages : List Stage) :
    stages.foldl push chain =
      { chain with plan := stages.foldl Plan.push chain.plan } := by
  induction stages generalizing chain with
  | nil => rfl
  | cons stage rest ih => exact ih (chain.push stage)

/-- A call is refused just if its stage is of another kind or badly formed,
whatever came before, and leaves the chain as it was. So those of some calls
that were not refused, made alone, all go through and come to the same chain,
while options and path tracking are those of the start. -/
theorem refused_calls_leave_no_trace (chain : Chain)
    (calls : List (Plan.Entry × Stage)) :
    let (answers, after) := makeCalls calls chain
    let kept := successful calls answers
    List.Forall₂ (fun call answer => (∃ error, answer = .error error) ↔
        call.1.fits call.2 = false ∨
        ∃ error, call.2.check = .error error) calls answers ∧
    (∀ entry stage error left,
      enter entry stage after = (.error error, left) → left = after) ∧
    makeCalls kept chain = (kept.map fun _ => .ok (), after) ∧
    after.plan = (kept.map Prod.snd).foldl Plan.push chain.plan ∧
    after.options = chain.options ∧ after.trackPaths = chain.trackPaths := by
  have hfold := (makeCalls_eq_foldl calls chain).trans (foldl_push chain _)
  refine ⟨makeCalls_answers calls chain, ?_, makeCalls_successful calls chain,
    ?_, ?_, ?_⟩
  · intro entry stage error left h
    rcases enter_cases entry stage (makeCalls calls chain).2
      with ⟨-, cause, hrun⟩ | ⟨-, -, hrun⟩ <;>
      rw [hrun] at h <;> cases h
    rfl
  all_goals rw [hfold]

end Chain

end JobChain
