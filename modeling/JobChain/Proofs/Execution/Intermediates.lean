import JobChain.Proofs.Execution.Upkeep

/-!
# Intermediate data

What a job has passed on lives until the next one has read it and no longer, as
far as a search can come to it. Nothing else is ever taken but an earlier
output, before the first job.
-/

namespace JobChain

open Execution Store

variable {σ : Type} {place : HasStore σ} {granted : Prop} {output : Path}
  {jobs : List Job}

/-! ## Along the upkeep -/

def jobBefore (previous? : Option Job) (jobs : List Job) : Nat → Option Job
  | 0 => previous?
  | index + 1 => jobs[index]?

def storeBehind (place : HasStore σ) (sent : List (Call σ)) (final : Store)
    (index : Nat) : Store :=
  match sent[index]? with
  | some call => place.store call.before
  | none => final

/-- The places that jobs and what is taken behind them may touch. -/
def Touches (here : Place) (previous? : Option Job) (jobs : List Job)
    (other : Place) : Prop :=
  (∃ previous, previous? = some previous ∧ previous.passesOn here other) ∨
    ∃ job ∈ jobs, job.place here <+: other

theorem TidiesBehind.changesAt {previous? : Option Job} {before after : Store}
    (h : TidiesBehind granted output previous? before after) :
    ChangesAt before after fun other =>
      ∃ previous, previous? = some previous ∧
        previous.passesOn before.here other := by
  cases previous? with
  | none =>
      obtain rfl : after = before := h
      exact .refl after _
  | some previous =>
      exact (Tidies.passesOn (fun _ => id) h).toChangesAt.mono
        fun other hother => ⟨previous, rfl, hother⟩

namespace Upkeep

variable {previous? : Option Job} {before after : Store} {sent : List (Call σ)}

private theorem changesAt_step {job : Job} (rest : List Job) {call : Call σ}
    {between tidied : Store} (hattends : Attends place job call before between)
    (htidies : TidiesBehind granted output previous? between tidied) :
    ChangesAt before tidied (Touches before.here previous? (job :: rest)) := by
  have hchanges := hattends.changesAt
  have htidied := htidies.changesAt
  rw [hchanges.here_eq] at htidied
  refine (hchanges.mono fun other hother => ?_).trans
    (htidied.mono fun other hother => ?_)
  · exact .inr ⟨job, List.mem_cons_self, hother⟩
  · exact .inl hother

private theorem touches_tail {here other : Place} {job : Job} {rest : List Job}
    (h : Touches here (some job) rest other) :
    Touches here previous? (job :: rest) other := by
  obtain ⟨_, ⟨⟩, hpasses⟩ | ⟨next, hnext, hbelow⟩ := h
  · exact .inr ⟨job, List.mem_cons_self, Job.place_of_passesOn hpasses⟩
  · exact .inr ⟨next, .tail _ hnext, hbelow⟩

theorem changesAt
    (h : Upkeep place granted output previous? jobs before sent after) :
    ChangesAt before after (Touches before.here previous? jobs) := by
  induction h with
  | done => exact .refl _ _
  | failed hattends =>
      exact hattends.changesAt.mono fun other hother =>
        .inr ⟨_, List.mem_cons_self, hother⟩
  | @passed _ _ rest _ _ _ _ _ _ hattends _ htidies _ ih =>
      have hstep := changesAt_step rest hattends htidies
      rw [hstep.here_eq] at ih
      exact hstep.trans (ih.mono fun _ => touches_tail)

theorem storeBehind_zero
    (h : Upkeep place granted output previous? jobs before sent after) :
    storeBehind place sent after 0 = before := by
  cases h with
  | done => rfl
  | failed hattends => exact hattends.before_eq
  | passed hattends => exact hattends.before_eq

theorem drop (h : Upkeep place granted output previous? jobs before sent after)
    {index : Nat} {call : Call σ} (hcall : sent[index]? = some call) :
    Upkeep place granted output (jobBefore previous? jobs index)
      (jobs.drop index) (place.store call.before) (sent.drop index) after ∧
      ChangesAt before (place.store call.before)
        (Touches before.here previous? jobs) := by
  induction h generalizing index with
  | done => simp at hcall
  | failed hattends hfails =>
      obtain ⟨rfl, rfl⟩ : index = 0 ∧ _ = call := by
        cases index with
        | zero => exact ⟨rfl, by simpa using hcall⟩
        | succ index => simp at hcall
      rw [hattends.before_eq]
      exact ⟨.failed hattends hfails, .refl _ _⟩
  | @passed _ _ rest first _ _ _ _ _ hattends hsucceeds htidies hrest ih =>
      cases index with
      | zero =>
          obtain rfl : first = call := by simpa using hcall
          rw [hattends.before_eq]
          exact ⟨.passed hattends hsucceeds htidies hrest, .refl _ _⟩
      | succ index =>
          obtain ⟨hupkeep, hchanges⟩ := ih hcall
          have hstep := changesAt_step rest hattends htidies
          rw [hstep.here_eq] at hchanges
          refine ⟨?_, hstep.trans (hchanges.mono fun _ => touches_tail)⟩
          cases index <;> exact hupkeep

end Upkeep

private theorem drop_eq_cons {α : Type} {list rest : List α} {first : α}
    {index : Nat} (h : list.drop index = first :: rest) :
    list[index]? = some first ∧ rest = list.drop (index + 1) := by
  constructor
  · have hfirst := congrArg (fun suffix => suffix[0]?) h
    simpa using hfirst
  · rw [← List.tail_drop, h, List.tail_cons]

/-- How the files go from a call to the next one or to the end. -/
structure Turn (place : HasStore σ) (granted : Prop) (output : Path)
    (previous? : Option Job) (rest : List Job) (call : Call σ)
    (later : List (Call σ)) (behind after : Store) : Prop where
  confined : ChangesAt (place.store call.before) (place.store call.after)
    fun other => call.job.place (place.store call.before).here <+: other
  finished : ∃ between, Refills (place.store call.after) between
      (call.job.isManifest (place.store call.before).here) ∧
    (call.succeeds = false ∧ behind = between ∨
      call.succeeds = true ∧
      TidiesBehind granted output previous? between behind)
  settled : call.succeeds = false ∧ later = [] ∧ after = behind ∨
    call.succeeds = true ∧
    Upkeep place granted output (some call.job) rest behind later after

theorem Upkeep.turn {previous? : Option Job} {before after : Store}
    {sent : List (Call σ)}
    (h : Upkeep place granted output previous? jobs before sent after)
    {index : Nat} {call : Call σ} (hcall : sent[index]? = some call) :
    jobs[index]? = some call.job ∧
      ChangesAt before (place.store call.before)
        (Touches before.here previous? jobs) ∧
      Turn place granted output (jobBefore previous? jobs index)
        (jobs.drop (index + 1)) call (sent.drop (index + 1))
        (storeBehind place sent after (index + 1)) after := by
  obtain ⟨hupkeep, hchanges⟩ := h.drop hcall
  have hbehind : storeBehind place sent after (index + 1) =
      storeBehind place (sent.drop (index + 1)) after 0 := by simp [storeBehind]
  rw [hbehind]
  generalize hjobs : jobs.drop index = jobsLeft at hupkeep
  generalize hsent : sent.drop index = sentLeft at hupkeep
  cases hupkeep with
  | done =>
      have hnone := congrArg (fun suffix => suffix[0]?) hsent
      simp [hcall] at hnone
  | failed hattends hfails =>
      obtain ⟨hjob, -⟩ := drop_eq_cons hjobs
      obtain ⟨hcall', hlater⟩ := drop_eq_cons hsent
      obtain rfl := Option.some.inj (hcall'.symm.trans hcall)
      obtain rfl := hattends.job_eq
      rw [← hlater]
      exact ⟨hjob, hchanges, hattends.confined,
        ⟨_, hattends.manifest, .inl ⟨hfails, rfl⟩⟩,
        .inl ⟨hfails, rfl, rfl⟩⟩
  | passed hattends hsucceeds htidies hrest =>
      obtain ⟨hjob, hjobsLater⟩ := drop_eq_cons hjobs
      obtain ⟨hcall', hlater⟩ := drop_eq_cons hsent
      obtain rfl := Option.some.inj (hcall'.symm.trans hcall)
      obtain rfl := hattends.job_eq
      rw [← hlater, ← hjobsLater, Upkeep.storeBehind_zero hrest]
      exact ⟨hjob, hchanges, hattends.confined,
        ⟨_, hattends.manifest, .inr ⟨hsucceeds, htidies⟩⟩,
        .inr ⟨hsucceeds, hrest⟩⟩

namespace Turn

variable {previous? : Option Job} {rest : List Job} {call : Call σ}
  {later : List (Call σ)} {behind after : Store} {other : Place}

theorem behind_eq
    (h : Turn place granted output previous? rest call later behind after)
    (hmanifest : ¬call.job.isManifest (place.store call.before).here other)
    (hprevious : call.succeeds = true → ∀ previous, previous? = some previous →
      ¬previous.passesOn (place.store call.before).here other) :
    behind.node? other = (place.store call.after).node? other := by
  obtain ⟨between, hchanges, ⟨-, rfl⟩ | ⟨hsucceeds, htidies⟩⟩ := h.finished
  · exact hchanges.kept other hmanifest
  · rw [htidies.changesAt.kept other, hchanges.kept other hmanifest]
    rintro ⟨previous, hsome, hpasses⟩
    rw [hchanges.here_eq, h.confined.here_eq] at hpasses
    exact hprevious hsucceeds previous hsome hpasses

private theorem after_eq
    (h : Turn place granted output previous? rest call later behind after)
    (hpasses : ¬call.job.passesOn behind.here other)
    (hrest : ∀ job ∈ rest, ¬job.place behind.here <+: other) :
    after.node? other = behind.node? other := by
  obtain ⟨-, -, rfl⟩ | ⟨-, hupkeep⟩ := h.settled
  · rfl
  · refine hupkeep.changesAt.kept other ?_
    rintro (⟨_, ⟨⟩, hother⟩ | ⟨job, hjob, hbelow⟩)
    · exact hpasses hother
    · exact hrest job hjob hbelow

theorem here_eq
    (h : Turn place granted output previous? rest call later behind after) :
    behind.here = (place.store call.before).here := by
  obtain ⟨between, hchanges, ⟨-, rfl⟩ | ⟨-, htidies⟩⟩ := h.finished
  · rw [hchanges.here_eq, h.confined.here_eq]
  · rw [htidies.changesAt.here_eq, hchanges.here_eq, h.confined.here_eq]

private theorem behind_eq_or {previous : Job}
    (h : Turn place granted output (some previous) rest call later behind after)
    (hmanifest : ¬call.job.isManifest (place.store call.before).here other) :
    behind.node? other = (place.store call.after).node? other ∨
    behind.node? other = none := by
  obtain ⟨between, hchanges, ⟨-, rfl⟩ | ⟨-, htidies⟩⟩ := h.finished
  · exact .inl (hchanges.kept other hmanifest)
  · rw [← hchanges.kept other hmanifest]
    exact (Deletes.shrinks htidies).less other

private theorem behind_eq_of_closed {previous : Job}
    (h : Turn place granted output (some previous) rest call later behind after)
    (hmanifest : ¬call.job.isManifest (place.store call.before).here other)
    (hclosed : isSearchable previous.output.location = true →
      ¬IsOpen (place.store call.after)
        (startOf (place.store call.before).here output) output.steps) :
    behind.node? other = (place.store call.after).node? other := by
  obtain ⟨between, hchanges, ⟨-, rfl⟩ | ⟨-, htidies⟩⟩ := h.finished
  · exact hchanges.kept other hmanifest
  rw [← hchanges.kept other hmanifest]
  by_cases hsearch : isSearchable previous.output.location = true
  · refine Deletes.idle htidies ?_ other
    rw [hchanges.here_eq, h.confined.here_eq, hchanges.isOpen_iff]
    exact hclosed hsearch
  · refine (Deletes.shrinks htidies).kept other ?_
    rintro ⟨target, htarget, -⟩
    exact hsearch (Job.mem_reached_iff.1 htarget).1

/-- Behind a job that succeeds what is found behind the job before is taken, and
nothing else is. -/
theorem behind_eq_iff {previous : Job}
    (h : Turn place granted output (some previous) rest call later behind after)
    (hsucceeds : call.succeeds = true) (hgranted : granted)
    (hmanifest : ∀ other,
      previous.place (place.store call.before).here <+: other →
      ¬call.job.isManifest (place.store call.before).here other)
    (hbelow : previous.place (place.store call.before).here <+: other) :
    (previous.IsTaken output (place.store call.after) other →
      behind.node? other = none) ∧
      (¬previous.IsTaken output (place.store call.after) other →
        behind.node? other = (place.store call.after).node? other) := by
  obtain ⟨between, hchanges, ⟨hfails, -⟩ | ⟨-, htidies⟩⟩ := h.finished
  · rw [hsucceeds] at hfails
    cases hfails
  have hreached : previous.reached Job.fronts between =
      previous.reached Job.fronts (place.store call.after) := by
    refine Job.reached_congr hchanges.here_eq fun _ _ name _ =>
      hchanges.kept _ ?_
    rw [h.confined.here_eq]
    exact hmanifest _ (List.prefix_append ..)
  have htidies : Deletes granted (startOf between.here output) output.steps
      (previous.reached Job.fronts between) between behind := htidies
  rw [hreached, hchanges.here_eq] at htidies
  rw [← hchanges.kept other (hmanifest other hbelow), Job.IsTaken]
  by_cases hopen :
      IsOpen (place.store call.after)
        (startOf (place.store call.after).here output)
      output.steps
  · have hloses := htidies.loses hgranted (hchanges.isOpen_iff.2 hopen)
    rw [and_iff_right hopen]
    exact ⟨hloses.gone other, hloses.kept other⟩
  · rw [← hchanges.isOpen_iff] at hopen
    exact ⟨fun htaken => absurd (hchanges.isOpen_iff.2 htaken.1) hopen,
      fun _ => htidies.idle hopen other⟩

end Turn

/-! ## Places of jobs -/

/-- The way to the output does not lead through the directory of a job. -/
def StaysOutside (here : Place) (output : Path) (jobs : List Job) : Prop :=
  ∀ passed ∈ walkFrom (startOf here output) output.steps, ∀ job ∈ jobs,
    ¬job.place here <+: passed

instance (here : Place) (output : Path) (jobs : List Job) :
    Decidable (StaysOutside here output jobs) :=
  inferInstanceAs
    (Decidable (∀ passed ∈ walkFrom (startOf here output) output.steps,
    ∀ job ∈ jobs, ¬job.place here <+: passed))

namespace IsLaidOut

variable {dataset : Dataset} {here other : Place} {index index' : Nat}
  {job job' : Job}

theorem place_eq (h : IsLaidOut dataset jobs) (hjob : jobs[index]? = some job)
    (here : Place) :
    job.place here = placeOf here dataset.output ++
    [Dataset.jobDirectory index] := by
  rw [Job.place, h.location_eq index job hjob, dataset.placeOf_jobLocation]

theorem index_eq (h : IsLaidOut dataset jobs) (hjob : jobs[index]? = some job)
    (hjob' : jobs[index']? = some job') (hbelow : job.place here <+: other)
    (hbelow' : job'.place here <+: other) : index = index' := by
  have hplace := h.place_eq hjob here
  have hplace' := h.place_eq hjob' here
  have hlength : (job.place here).length = (job'.place here).length := by
    simp [hplace, hplace']
  have heq :=
    (List.prefix_of_prefix_length_le hbelow hbelow'
      (Nat.le_of_eq hlength)).eq_of_length
    hlength
  rw [hplace, hplace'] at heq
  exact Dataset.jobDirectory_injective (by simpa using heq)

theorem not_below (h : IsLaidOut dataset jobs) (hjob : jobs[index]? = some job)
    (hjob' : jobs[index']? = some job') (hne : index ≠ index')
    (hbelow : job.place here <+: other) : ¬job'.place here <+: other :=
  fun hbelow' => hne (h.index_eq hjob hjob' hbelow hbelow')

theorem jobBefore_ne (h : IsLaidOut dataset jobs)
    (hjob : jobs[index]? = some job) {previous : Job}
    (hprevious : jobBefore none jobs index' = some previous)
    (hne : index' ≠ index + 1) (hbelow : job.place here <+: other) :
    ¬previous.passesOn here other := by
  intro hpasses
  cases index' with
  | zero => cases hprevious
  | succ index' =>
      exact h.not_below hjob hprevious
        (by omega) hbelow (Job.place_of_passesOn hpasses)

end IsLaidOut

/-! ## What is kept, and how long -/

/-- How long data lives in a run, told by its calls and by the stores around
them. -/
structure KeepsUntilRead (place : HasStore σ) (granted : Prop) (output : Path)
    (jobs : List Job) (here : Place) (sent : List (Call σ))
    (final : Store) : Prop where
  job_eq {index : Nat} {call : Call σ} (hcall : sent[index]? = some call) :
    jobs[index]? = some call.job
  behind_eq {index : Nat} {call : Call σ} (hcall : sent[index]? = some call)
    {other : Place} (hmanifest : ¬call.job.isManifest here other)
    (hprevious : call.succeeds = true → ∀ previous, jobBefore none jobs index =
      some previous → ¬previous.passesOn here other) :
    (storeBehind place sent final (index + 1)).node? other =
      (place.store call.after).node? other
  found {index : Nat} {call next : Call σ} (hcall : sent[index]? = some call)
    (hnext : sent[index + 1]? = some next) {other : Place}
    (hbelow : call.job.place here <+: other) :
    (place.store next.before).node? other = (place.store call.after).node? other
  unread {index : Nat} {call next : Call σ} (hcall : sent[index]? = some call)
    (hnext : sent[index + 1]? = some next) (hfails : next.succeeds = false)
    {other : Place} (hbelow : call.job.place here <+: other) :
    final.node? other = (place.store call.after).node? other
  read {index : Nat} {call next : Call σ} (hcall : sent[index]? = some call)
    (hnext : sent[index + 1]? = some next) {other : Place}
    (hbelow : call.job.place here <+: other) :
    final.node? other = (place.store call.after).node? other ∨
      call.job.passesOn here other ∧ final.node? other = none
  exactly (hgranted : granted) {index : Nat}
    {call next : Call σ} (hcall : sent[index]? = some call)
    (hnext : sent[index + 1]? = some next) (hsucceeds : next.succeeds = true)
    {other : Place} (hbelow : call.job.place here <+: other) :
    (call.job.IsTaken output (place.store next.after) other →
      (storeBehind place sent final (index + 2)).node? other = none ∧
      final.node? other = none) ∧
    (¬call.job.IsTaken output (place.store next.after) other →
      final.node? other = (place.store call.after).node? other)
  taken (hgranted : granted) {index : Nat} {call next : Call σ}
    (hcall : sent[index]? = some call) (hnext : sent[index + 1]? = some next)
    (hsucceeds : next.succeeds = true)
    (hsearch : isSearchable call.job.output.location = true)
    (hopen : IsOpen (place.store next.after) (startOf here output) output.steps)
    (hclear : ∀ passed ∈ walkFrom (startOf here output) output.steps,
      ¬call.job.passesOn here passed)
    {other : Place} (hpasses : call.job.passesOn here other) :
    (storeBehind place sent final (index + 2)).node? other = none ∧
    final.node? other = none
  out_of_reach {index : Nat} {call next : Call σ} (hcall : sent[index]? =
    some call) (hnext : sent[index + 1]? = some next)
    (hclosed : isSearchable call.job.output.location = true →
      ¬IsOpen (place.store next.after) (startOf here output) output.steps)
    {other : Place} (hbelow : call.job.place here <+: other) :
    final.node? other = (place.store call.after).node? other
  isOpen (houtside : StaysOutside here output jobs) {index : Nat}
    {call : Call σ} (hcall : sent[index]? = some call) :
    IsOpen (place.store call.after) (startOf here output) output.steps
  last {index : Nat} {call : Call σ} (hcall : sent[index]? = some call)
    (hlast : sent[index + 1]? = none)
    {other : Place} (hbelow : call.job.place here <+: other)
    (hmanifest : ¬call.job.isManifest here other) :
    final.node? other = (place.store call.after).node? other

namespace Upkeep

variable {dataset : Dataset} {opened final : Store} {sent : List (Call σ)}

section

variable (hlaid : IsLaidOut dataset jobs)
  (h : Upkeep place granted dataset.output none jobs opened sent final)
  {index : Nat} {call next : Call σ} (hcall : sent[index]? = some call)

include h hcall

private theorem here_eq_of_call :
    (place.store call.before).here = opened.here :=
  (h.turn hcall).2.1.here_eq

include hlaid

private theorem not_isManifest (hnext : sent[index + 1]? = some next)
    (here other : Place) : ¬call.job.isManifest here other := by
  intro hmanifest
  have hlast :=
    hlaid.last_of_publishes index call.job (h.turn hcall).1 hmanifest.1
  have hlt := (List.getElem?_eq_some_iff.1 (h.turn hnext).1).1
  omega

private theorem behind_eq_below {other : Place}
    (hbelow : call.job.place opened.here <+: other)
    (hmanifest : ¬call.job.isManifest opened.here other) :
    (storeBehind place sent final (index + 1)).node? other =
      (place.store call.after).node? other := by
  obtain ⟨hjob, -, hturn⟩ := h.turn hcall
  have hhere := h.here_eq_of_call hcall
  refine hturn.behind_eq (hhere ▸ hmanifest) fun _ previous hprevious => ?_
  rw [hhere]
  exact hlaid.jobBefore_ne hjob hprevious (by omega) hbelow

variable (hnext : sent[index + 1]? = some next)

include hnext

private theorem found_eq {other : Place}
    (hbelow : call.job.place opened.here <+: other) :
    (place.store next.before).node? other =
      (place.store call.after).node? other := by
  have hbehind : storeBehind place sent final (index + 1) =
      place.store next.before := by
    simp [storeBehind, hnext]
  rw [← hbehind]
  exact h.behind_eq_below hlaid hcall hbelow
    (h.not_isManifest hlaid hcall hnext _ _)

private theorem after_next_eq {other : Place}
    (hbelow : call.job.place opened.here <+: other) :
    (place.store next.after).node? other =
      (place.store call.after).node? other := by
  obtain ⟨hjob', -, hturn⟩ := h.turn hnext
  rw [← h.found_eq hlaid hcall hnext hbelow]
  refine hturn.confined.kept other ?_
  rw [h.here_eq_of_call hnext]
  exact hlaid.not_below (h.turn hcall).1 hjob' (by omega) hbelow

private theorem final_eq {other : Place}
    (hbelow : call.job.place opened.here <+: other) :
    final.node? other =
      (storeBehind place sent final (index + 2)).node? other := by
  obtain ⟨hjob', -, hturn⟩ := h.turn hnext
  have hhere : (storeBehind place sent final (index + 1 + 1)).here =
      opened.here := by
    rw [hturn.here_eq, h.here_eq_of_call hnext]
  refine hturn.after_eq (fun hpasses => ?_) fun job hjob => ?_
  · rw [hhere] at hpasses
    exact hlaid.not_below (h.turn hcall).1 hjob'
      (by omega) hbelow (Job.place_of_passesOn hpasses)
  · obtain ⟨later, hlater⟩ := List.mem_iff_getElem?.1 hjob
    rw [List.getElem?_drop] at hlater
    rw [hhere]
    exact hlaid.not_below (h.turn hcall).1 hlater (by omega) hbelow

private theorem not_isManifest_next {other : Place}
    (hbelow : call.job.place opened.here <+: other) :
    ¬next.job.isManifest (place.store next.before).here other := by
  intro hmanifest
  rw [h.here_eq_of_call hnext] at hmanifest
  exact hlaid.not_below (h.turn hcall).1 (h.turn hnext).1 (by omega) hbelow
    (Job.place_of_isManifest hmanifest)

omit hlaid in
private theorem turn_next :
    Turn place granted dataset.output (some call.job)
      (jobs.drop (index + 2)) next
    (sent.drop (index + 2)) (storeBehind place sent final (index + 2))
    final := by
  obtain ⟨-, -, hturn⟩ := h.turn hnext
  rw [jobBefore, (h.turn hcall).1] at hturn
  exact hturn

end

private theorem exactly (hlaid : IsLaidOut dataset jobs)
    (h : Upkeep place granted dataset.output none jobs opened sent final)
    (hgranted : granted) {index : Nat} {call next : Call σ}
    (hcall : sent[index]? = some call) (hnext : sent[index + 1]? = some next)
    (hsucceeds : next.succeeds = true) {other : Place}
    (hbelow : call.job.place opened.here <+: other) :
    (call.job.IsTaken dataset.output (place.store next.after) other →
      (storeBehind place sent final (index + 2)).node? other = none ∧
      final.node? other = none) ∧
    (¬call.job.IsTaken dataset.output (place.store next.after) other →
      final.node? other = (place.store call.after).node? other) := by
  have hhere := h.here_eq_of_call hnext
  rw [← h.after_next_eq hlaid hcall hnext hbelow,
    h.final_eq hlaid hcall hnext hbelow, and_self]
  refine (h.turn_next hcall hnext).behind_eq_iff hsucceeds hgranted
    (fun _ hother => ?_) ?_
  · exact h.not_isManifest_next hlaid hcall hnext (hhere ▸ hother)
  · rwa [hhere]

theorem taken (hlaid : IsLaidOut dataset jobs)
    (h : Upkeep place granted dataset.output none jobs opened sent final)
    (htree : IsTree opened) (hgranted : granted) {index : Nat}
    {call next : Call σ} (hcall : sent[index]? = some call)
    (hnext : sent[index + 1]? = some next) (hsucceeds : next.succeeds = true)
    (hsearch : isSearchable call.job.output.location = true)
    (hopen : IsOpen (place.store next.after)
      (startOf opened.here dataset.output) dataset.output.steps)
    (hclear : ∀ passed ∈ walkFrom (startOf opened.here dataset.output)
      dataset.output.steps, ¬call.job.passesOn opened.here passed)
    {other : Place} (hpasses : call.job.passesOn opened.here other) :
    (storeBehind place sent final (index + 2)).node? other = none ∧
    final.node? other = none := by
  have hbelow := Job.place_of_passesOn hpasses
  obtain ⟨hnone, hkept⟩ := h.exactly hlaid hgranted hcall hnext hsucceeds hbelow
  by_cases htaken :
      call.job.IsTaken dataset.output (place.store next.after) other
  · exact hnone htaken
  obtain ⟨-, hchanges, hturn⟩ := h.turn hnext
  have hhere : (place.store next.after).here = opened.here := by
    rw [hturn.confined.here_eq, hchanges.here_eq]
  have hmissing : (place.store next.after).node? other = none := by
    by_contra hother
    rw [← hhere] at hopen hclear hpasses
    exact htaken
      (Job.isTaken_of_clear
        (hturn.confined.isTree (hchanges.isTree htree)) hsearch
      hopen hclear hpasses hother)
  have hfinal : final.node? other = none := by
    rw [hkept htaken, ← h.after_next_eq hlaid hcall hnext hbelow, hmissing]
  rw [← h.final_eq hlaid hcall hnext hbelow]
  exact ⟨hfinal, hfinal⟩

private theorem keepsUntilRead (hlaid : IsLaidOut dataset jobs)
    (h : Upkeep place granted dataset.output none jobs opened sent final)
    (htree : IsTree opened)
    (hopen : IsOpen opened (startOf opened.here dataset.output)
      dataset.output.steps) :
    KeepsUntilRead place granted dataset.output jobs opened.here sent
      final where
  job_eq hcall := (h.turn hcall).1
  behind_eq hcall _ hmanifest hprevious := by
    have hhere := h.here_eq_of_call hcall
    exact (h.turn hcall).2.2.behind_eq (hhere ▸ hmanifest) (hhere ▸ hprevious)
  found hcall hnext _ hbelow := h.found_eq hlaid hcall hnext hbelow
  unread hcall hnext hfails _ hbelow := by
    rw [h.final_eq hlaid hcall hnext hbelow,
      ← h.after_next_eq hlaid hcall hnext hbelow]
    refine (h.turn hnext).2.2.behind_eq
      (h.not_isManifest_next hlaid hcall hnext hbelow) ?_
    rw [hfails]
    rintro ⟨⟩
  read := by
    intro index call next hcall hnext other hbelow
    have hmanifest := h.not_isManifest_next hlaid hcall hnext hbelow
    have hhere := h.here_eq_of_call hnext
    rw [h.final_eq hlaid hcall hnext hbelow,
      ← h.after_next_eq hlaid hcall hnext hbelow]
    by_cases hpasses : call.job.passesOn opened.here other
    · rcases (h.turn_next hcall hnext).behind_eq_or hmanifest with heq | hnone
      · exact .inl heq
      · exact .inr ⟨hpasses, hnone⟩
    · refine .inl ((h.turn_next hcall hnext).behind_eq hmanifest ?_)
      rintro - _ ⟨⟩
      rwa [hhere]
  exactly := h.exactly hlaid
  taken hgranted _ _ _ hcall hnext hsucceeds hsearch hopen' hclear _ :=
    h.taken hlaid htree hgranted hcall hnext hsucceeds hsearch hopen' hclear
  out_of_reach hcall hnext hclosed _ hbelow := by
    rw [h.final_eq hlaid hcall hnext hbelow,
      ← h.after_next_eq hlaid hcall hnext hbelow]
    refine (h.turn_next hcall hnext).behind_eq_of_closed
      (h.not_isManifest_next hlaid hcall hnext hbelow) ?_
    rwa [h.here_eq_of_call hnext]
  isOpen := by
    intro houtside index call hcall
    obtain ⟨hjob, hchanges, hturn⟩ := h.turn hcall
    refine hturn.confined.isOpen
      (fun passed hpassed => ?_) (hchanges.isOpen ?_ hopen)
    · rw [h.here_eq_of_call hcall]
      exact houtside passed hpassed _ (List.mem_of_getElem? hjob)
    · rintro passed hpassed (⟨_, ⟨⟩, -⟩ | ⟨job, hjob, hbelow⟩)
      exact houtside passed hpassed job hjob hbelow
  last := by
    intro index call hcall hlast other hbelow hmanifest
    have hfinal : storeBehind place sent final (index + 1) = final := by
      simp [storeBehind, hlast]
    rw [← h.behind_eq_below hlaid hcall hbelow hmanifest, hfinal]

end Upkeep

/-- Of the files of a compiled chain nothing is taken before it has been read,
whatever its engine does in the directories of the jobs, and then just what has
been passed on is taken. Before the first job only an earlier output is taken,
if that is wanted. -/
theorem run_keeps_until_read {around : Surroundings σ}
    (hstore : around.IsOnStore place) {chain : Chain}
    {entries : List (Plan.Entry × Stage)} {packages : Store}
    {home? : Option String} {dataset : Dataset}
    (hgrown : Plan.enterAll {} entries = .ok chain.plan)
    (hcompile : (chain.compile packages home? dataset).2 = .ok jobs)
    (hconfined : around.IsConfined place jobs) {start : σ}
    (htree : IsTree (place.store start))
    (hhere : (place.store start).node? (place.store start).here =
      some .directory)
    (overwrite trackPaths : Bool) :
    ∃ result final, ∃ events : List (Event σ),
      (Execution.run around jobs dataset.output overwrite trackPaths).run
        start = (result, final) ∧
      (Execution.run around.recorded jobs dataset.output overwrite
        trackPaths).run (start, []) =
        (result, final, events) ∧
      (∀ outcome, result = .ok outcome →
        AllSucceeded jobs outcome events ∨ ∃ failed,
        FailedAt failed jobs outcome events) ∧
      Opens dataset.output overwrite (place.store start)
        (storeBehind place (calls events) (place.store final) 0) ∧
      KeepsUntilRead place (IsGranted events) dataset.output jobs
        (place.store start).here (calls events) (place.store final) := by
  have hlaid := isLaidOut_of_compile hgrown hcompile
  obtain ⟨events, hrun, hordered, opened, hopens, hconducts⟩ :=
    ((recorded_run around jobs dataset.output overwrite trackPaths start).and
      (recorded_run_files hstore hconfined
        (fun _ => hlaid.exists_location) overwrite trackPaths htree hhere)) []
  rw [List.nil_append] at hrun
  generalize (Execution.run around jobs dataset.output overwrite trackPaths).run
    start = plain at *
  obtain ⟨result, final⟩ := plain
  refine ⟨result, final, events, rfl, hrun,
    fun outcome houtcome => (houtcome ▸ hordered).ends, ?_⟩
  obtain ⟨hopened, hopenedTree⟩ : opened.here = (place.store start).here ∧
      IsTree opened := by
    obtain ⟨cleared, hshrinks, hgrows⟩ := hopens
    exact ⟨by
      rw [hgrows.here_eq, hshrinks.here_eq],
        hgrows.isTree (hshrinks.isTree htree)⟩
  rw [← hopened]
  generalize hsent : calls events = sent at hconducts
  cases hconducts with
  | idle =>
      refine ⟨by simpa [storeBehind] using hopens, ?_⟩
      constructor <;> simp
  | sent hopen hupkeep =>
      rw [hupkeep.storeBehind_zero]
      exact ⟨hopens, hupkeep.keepsUntilRead hlaid hopenedTree hopen⟩

def sampleChain : Chain where
  plan := { mode := .openMaps, blocks := [⟨0, [Plan.sampleMapReduce]⟩,
    ⟨1, [Plan.sampleMap]⟩] }
  options := SortedMap.empty.insert Options.package "stages.jar"
  trackPaths := false

def sampleDataset : Dataset := { input := ⟨"in"⟩, output := ⟨"o[u]t"⟩ }

def sampleJobs : List Job :=
  ((sampleChain.compile {} none sampleDataset).2.toOption).getD []

def sampleStore : Store :=
  ((({} : Store).put ["o[u]t"] .directory).put ["o[u]t",
    "job-0"] .directory).put ["o[u]t", "job-1"] .directory

def itself : HasStore Store := ⟨id, fun store _ => store⟩

def frugal : Surroundings Store :=
  { Surroundings.onStore itself {} (pure "") (fun _ => pure ())
      (fun _ => pure ()) (pure { seconds := 0 }) with
    runJob := fun job store => (.ok { id := "", status := .succeeded },
      (change (fun store =>
        store.write (job.output.location.child "part-m-00000") (.text ""))
          store).2) }

theorem isConfined_frugal : frugal.IsConfined itself sampleJobs := by
  intro job _ store
  refine (change_write_refills _ _ store).toChangesAt.mono
    fun other hother => ?_
  rw [hother, placeOf_child job.output.location (by decide) (by decide)
    (by decide) store.here]
  exact List.prefix_append ..

theorem isTree_sampleStore : IsTree (itself.store sampleStore) := by
  have houtput := @isTree_put _ [] "o[u]t" .directory isTree_empty rfl
    (by decide) (by decide)
  have hfirst := @isTree_put _ ["o[u]t"] "job-0" .directory houtput (by decide)
    (by decide) (by decide)
  exact @isTree_put _ ["o[u]t"] "job-1" .directory hfirst (by decide)
    (by decide) (by decide)

def sampleRecord : List (Event Store) :=
  ((Execution.run frugal.recorded sampleJobs sampleDataset.output false
    false).run (sampleStore, [])).2.2

def samplePart : Place := ["o[u]t", "job-0", "part-m-00000"]

theorem run_keeps_until_read_brackets :
    ∃ first second final, calls sampleRecord = [first, second] ∧
      ((Execution.run frugal sampleJobs sampleDataset.output false false).run
        sampleStore).2 = final ∧
      second.before.node? samplePart = some (.file (.text "")) ∧
      final.node? samplePart = none := by
  have hstore : frugal.IsOnStore itself :=
    Surroundings.isOnStore_onStore _ _ (fun _ _ => rfl) (fun _ _ => rfl)
      (fun _ _ => rfl) fun _ => rfl
  have hgrown : Plan.enterAll {} [(.ofMapReduce, Plan.sampleMapReduce),
      (.ofMap, Plan.sampleMap)] =
      .ok sampleChain.plan := by rfl
  have hcompile : (sampleChain.compile {} none sampleDataset).2 =
      .ok sampleJobs := by rfl
  obtain ⟨result, final, events, hfinal, hrun, -, -, hkeeps⟩ :=
    run_keeps_until_read hstore hgrown hcompile isConfined_frugal
      isTree_sampleStore (by decide) false false
  obtain rfl : sampleRecord = events := by rw [sampleRecord, hrun]
  have hcalls : (calls sampleRecord).map (fun call =>
      (call.succeeds, call.after.node? samplePart)) =
        [(true, some (.file (.text ""))), (true, some (.file (.text "")))] := by
        decide +kernel
  have hfailures : (sampleRecord.filterMap Event.failure?).isEmpty = true := by
    decide +kernel
  have hgranted : IsGranted sampleRecord := by
    intro event hevent path error hdeed
    have hfailure : error ∈ sampleRecord.filterMap Event.failure? :=
      List.mem_filterMap.2 ⟨event, hevent, by simp [Event.failure?, hdeed]⟩
    rw [List.isEmpty_iff.1 hfailures] at hfailure
    cases hfailure
  obtain ⟨first, second, hsent⟩ : ∃ first second, calls sampleRecord = [first,
      second] :=
    List.length_eq_two.1 (by simpa using congrArg List.length hcalls)
  rw [hsent] at hcalls hkeeps
  obtain ⟨⟨-, hpart⟩, hsucceeds, -⟩ :
      (_ ∧ first.after.node? samplePart = some (.file (.text ""))) ∧
      second.succeeds = true ∧ _ := by simpa using hcalls
  have hfirst : [first, second][0]? = some first := rfl
  have hsecond : [first, second][0 + 1]? = some second := rfl
  have hjob : sampleJobs[0]? = some first.job := hkeeps.job_eq hfirst
  have houtside : StaysOutside [] sampleDataset.output sampleJobs := by decide
  have hsample : ∀ job ∈ sampleJobs[0]?,
      isSearchable job.output.location = true ∧
      job.place [] ++ ["part-m-00000"] = samplePart := by decide
  obtain ⟨hsearch, hplace⟩ := hsample first.job hjob
  have hpasses : first.job.passesOn [] samplePart :=
    ⟨mainOutput, by
      decide, "part-m-00000", by decide, hplace ▸ List.prefix_refl _⟩
  refine ⟨first, second, final, hsent, by rw [hfinal], ?_, ?_⟩
  · rw [← hpart]
    exact hkeeps.found hfirst hsecond (Job.place_of_passesOn hpasses)
  · refine (hkeeps.taken hgranted hfirst hsecond hsucceeds hsearch
      (hkeeps.isOpen houtside hsecond)
      (fun passed hpassed hother => ?_) hpasses).2
    exact houtside passed hpassed first.job (List.mem_of_getElem? hjob)
      (Job.place_of_passesOn hother)

end JobChain
