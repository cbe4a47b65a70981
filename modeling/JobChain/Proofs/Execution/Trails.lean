import JobChain.Proofs.Execution.Outcome

/-!
# Trails of runs

The record of a run is a trail: each event is what the surroundings do when they
are asked, in the state that the event before it has left. And a run asks for
nothing but what is due to its jobs and its output.
-/

namespace JobChain

open Execution

variable {σ : Type}

def Event.IsOf (around : Surroundings σ) : Event σ → Prop
  | ⟨before, .asked path there, after⟩ =>
      around.isThere path before = (there, after)
  | ⟨before, .made path result, after⟩ =>
      (around.makeDirectories path).run before = (result, after)
  | ⟨before, .deleted path result, after⟩ =>
      (around.delete path).run before = (result, after)
  | ⟨before, .listed pattern result, after⟩ =>
      (around.list pattern).run before = (result, after)
  | ⟨before, .ran job answer, after⟩ =>
      (around.runJob job).run before = (answer, after)
  | ⟨before, .published job result, after⟩ =>
      (around.publish job).run before = (result, after)
  | ⟨before, .observed run, after⟩ => around.observe run before = ((), after)
  | ⟨before, .told line, after⟩ => around.tell line before = ((), after)
  | ⟨before, .clocked time, after⟩ => around.now before = (time, after)

/-- The call is what the surroundings do when they are sent its job. -/
def Call.IsOf (around : Surroundings σ) (call : Call σ) : Prop :=
  (around.runJob call.job).run call.before = (call.answer, call.after)

/-- A path that is found, in some state that holds, among what some job leaves
for the next. -/
def Surroundings.Finds (around : Surroundings σ) (holds : σ → Prop)
    (jobs : List Job) (path : Path) : Prop :=
  ∃ job ∈ jobs, ∃ pattern ∈ intermediates job, ∃ state paths,
    holds state ∧ ((around.list pattern).run state).1 = .ok paths ∧ path ∈ paths

def Deed.IsDue (around : Surroundings σ) (holds : σ → Prop) (jobs : List Job)
    (output? : Option Path) : Deed → Prop
  | .asked path _ | .made path _ => output? = some path
  | .deleted path _ => output? = some path ∨ around.Finds holds jobs path
  | .listed pattern _ => ∃ job ∈ jobs, pattern ∈ intermediates job
  | .ran job _ => job ∈ jobs
  | .published job _ => job ∈ jobs ∧ job.publishes = true
  | .observed _ | .told _ | .clocked _ => True

inductive Trail (around : Surroundings σ) (holds : σ → Prop) (jobs : List Job)
    (output? : Option Path) : σ → List (Event σ) → σ → Prop where
  | nil {state : σ} : Trail around holds jobs output? state [] state
  | cons {state between after : σ} {deed : Deed} {rest : List (Event σ)}
      (hof : Event.IsOf around ⟨state, deed, between⟩)
      (hdue : deed.IsDue around holds jobs output?)
      (hrest : Trail around holds jobs output? between rest after) :
      Trail around holds jobs output? state (⟨state, deed, between⟩ ::
        rest) after

def Surroundings.Keeps (around : Surroundings σ) (holds : σ → Prop)
    (jobs : List Job) (output? : Option Path) : Prop :=
  ∀ event : Event σ, event.IsOf around →
    event.deed.IsDue around holds jobs output? →
    holds event.before → holds event.after

section

variable {around : Surroundings σ} {holds : σ → Prop} {jobs : List Job}
  {output? : Option Path}

theorem Trail.append {state between after : σ} {events later : List (Event σ)}
    (h : Trail around holds jobs output? state events between)
    (hlater : Trail around holds jobs output? between later after) :
    Trail around holds jobs output? state (events ++ later) after := by
  induction h with
  | nil => exact hlater
  | cons hof hdue _ ih => exact .cons hof hdue (ih hlater)

theorem Trail.forall_events {state after : σ} {events : List (Event σ)}
    (h : Trail around holds jobs output? state events after) :
    ∀ event ∈ events, event.IsOf around ∧
      event.deed.IsDue around holds jobs output? := by
  induction h with
  | nil => simp
  | cons hof hdue _ ih => exact List.forall_mem_cons.2 ⟨⟨hof, hdue⟩, ih⟩

theorem Trail.forall_calls {state after : σ} {events : List (Event σ)}
    (h : Trail around holds jobs output? state events after) :
    ∀ call ∈ calls events, call.IsOf around ∧ call.job ∈ jobs := by
  intro call hcall
  obtain ⟨⟨before, deed, after⟩, hevent, hsent⟩ := List.mem_filterMap.1 hcall
  obtain ⟨hof, hdue⟩ := h.forall_events _ hevent
  cases deed with
  | ran job answer =>
      obtain rfl := Option.some.inj hsent
      exact ⟨hof, hdue⟩
  | _ => cases hsent

theorem Trail.invariant {state after : σ} {events : List (Event σ)}
    (h : Trail around holds jobs output? state events after)
    (hkeeps : around.Keeps holds jobs output?) (hstart : holds state) :
    (∀ event ∈ events, holds event.before ∧ holds event.after) ∧
    holds after := by
  induction h with
  | nil => exact ⟨by simp, hstart⟩
  | cons hof hdue _ ih =>
      have hbetween := hkeeps _ hof hdue hstart
      obtain ⟨hevents, hafter⟩ := ih hbetween
      exact ⟨List.forall_mem_cons.2 ⟨⟨hstart, hbetween⟩, hevents⟩, hafter⟩

variable (output?)

private theorem recorded_deleteEach_trail {paths : List Path}
    (hfound : ∀ path ∈ paths, around.Finds holds jobs path) (state : σ) :
    Recorded state (deleteEach around.recorded paths) (deleteEach around paths)
      fun _ after events =>
        Trail around holds jobs output? state events after := by
  induction paths generalizing state with
  | nil => exact .pure .nil
  | cons path rest ih =>
      obtain ⟨hpath, hrest⟩ := List.forall_mem_cons.1 hfound
      simp only [deleteEach, Surroundings.run_recorded_delete,
        Surroundings.recorded_tell]
      refine .record_bind fun result after hdelete => ?_
      rcases result with error | there <;>
        exact .record_bind fun _ last htell =>
          (ih hrest last).mono fun _ _ _ htrail =>
          .cons hdelete (.inr hpath) (.cons htell trivial htrail)

private theorem recorded_deleteMatching_trail
    (hkeeps : around.Keeps holds jobs output?) {job : Job} (hjob : job ∈ jobs)
    {patterns : List String}
    (hpatterns : ∀ pattern ∈ patterns, pattern ∈ intermediates job) {state : σ}
    (hstate : holds state) :
    Recorded state (deleteMatching around.recorded patterns)
      (deleteMatching around patterns) fun _ after events =>
        Trail around holds jobs output? state events after := by
  induction patterns generalizing state with
  | nil => exact .pure .nil
  | cons pattern rest ih =>
      obtain ⟨hpattern, hrest⟩ := List.forall_mem_cons.1 hpatterns
      simp only [deleteMatching, Surroundings.run_recorded_list,
        Surroundings.recorded_tell]
      refine .record_bind fun result after hlist => ?_
      have hdue :
          (Deed.listed pattern result).IsDue around holds jobs output? :=
        ⟨job, hjob, hpattern⟩
      have hafter : holds after :=
        hkeeps ⟨state, .listed pattern result, after⟩ hlist hdue hstate
      cases result with
      | error error =>
          refine .record_bind fun _ last htell => ?_
          have hlast : holds last :=
            hkeeps ⟨after, .told _, last⟩ htell trivial hafter
          refine (ih hrest hlast).mono fun _ _ _ htrail => ?_
          exact .cons hlist hdue (.cons htell trivial htrail)
      | ok paths =>
          have hfound : ∀ path ∈ paths, around.Finds holds jobs path :=
            fun path hpath => ⟨job, hjob, pattern, hpattern, state, paths,
              hstate, by rw [hlist], hpath⟩
          refine (recorded_deleteEach_trail output? hfound after).bind
            fun _ last deleted hdeleted => ?_
          refine (ih hrest (hdeleted.invariant hkeeps hafter).2).mono
            fun _ _ _ htrail => ?_
          exact .cons hlist hdue (hdeleted.append htrail)

private theorem recorded_finishReported_trail {job : Job} (hjob : job ∈ jobs)
    (answer : Except Failure JobReport) (state : σ) :
    Recorded state (finishReported around.recorded job answer)
      (finishReported around job answer) fun _ after events =>
        Trail around holds jobs output? state events after := by
  unfold finishReported finish
  cases answer.isOk with
  | false => exact .pure .nil
  | true =>
      cases hpublishes : job.publishes with
      | false => exact .pure .nil
      | true =>
          simp only [if_true, Surroundings.run_recorded_publish,
            Surroundings.recorded_tell]
          refine .record_bind fun result after hpublish => ?_
          cases result with
          | error error =>
              refine (recorded_record _ _).mono ?_
              rintro _ _ _ ⟨htell, rfl⟩
              exact .cons hpublish ⟨hjob, hpublishes⟩ (.cons htell trivial .nil)
          | ok done => exact .pure (.cons hpublish ⟨hjob, hpublishes⟩ .nil)

private theorem recorded_runOne_trail (total index : Nat) {job : Job}
    (hjob : job ∈ jobs) (state : σ) :
    Recorded state (runOne around.recorded total index job)
      (runOne around total index job) fun _ after events =>
        Trail around holds jobs output? state events after := by
  rw [runOne_eq, runOne_eq]
  simp only [Surroundings.recorded_tell, Surroundings.recorded_now,
    Surroundings.recorded_observe, Surroundings.run_recorded_runJob]
  refine .record_bind fun _ _ htell => .record_bind fun _ _ htell' => ?_
  refine .record_bind fun started _ hnow =>
    .record_bind fun _ before hobserve => ?_
  refine .record_bind fun answer after hran => ?_
  refine (@recorded_finishReported_trail _ _ holds _ output? _ hjob answer
    after).bind ?_
  intro _ _ finishing htrail
  refine .record_bind fun finished _ hnow' => .record_bind fun _ _ hobserve' =>
    .pure ?_
  refine .cons htell trivial
    (.cons htell' trivial (.cons hnow trivial (.cons hobserve trivial ?_)))
  exact .cons hran hjob
    (htrail.append (.cons hnow' trivial (.cons hobserve' trivial .nil)))

theorem recorded_runFrom_trail (hkeeps : around.Keeps holds jobs output?)
    (total index : Nat) {previous? : Option Job} {rest : List Job}
    (hprevious : ∀ previous, previous? = some previous → previous ∈ jobs)
    (hrest : ∀ job ∈ rest, job ∈ jobs) {state : σ} (hstate : holds state) :
    Recorded state (runFrom around.recorded total index previous? rest)
      (runFrom around total index previous? rest)
      fun _ after events =>
        Trail around holds jobs output? state events after := by
  induction rest generalizing index previous? state with
  | nil =>
      simp only [runFrom, Surroundings.recorded_tell]
      exact .record_bind fun _ _ htell => .pure (.cons htell trivial .nil)
  | cons job rest ih =>
      obtain ⟨hjob, hrest⟩ := List.forall_mem_cons.1 hrest
      simp only [runFrom, Surroundings.recorded_tell]
      refine (@recorded_runOne_trail _ _ holds _ output? total index _ hjob
        state).bind ?_
      have hnext :=
        @ih (index + 1) (some job) (by rintro _ ⟨⟩; exact hjob) hrest
      rintro ⟨run, _ | error⟩ between turn hturn
      · have hbetween : holds between := (hturn.invariant hkeeps hstate).2
        cases previous? with
        | none =>
            refine (hnext hbetween).bind fun _ _ later hlater => .pure ?_
            simpa using hturn.append hlater
        | some previous =>
            refine (recorded_deleteMatching_trail output? hkeeps
              (hprevious previous rfl) (fun _ => id) hbetween).bind
              fun _ after _ hdeleted => ?_
            refine (hnext (hdeleted.invariant hkeeps hbetween).2).bind
              fun _ _ later hlater => .pure ?_
            simpa using hturn.append (hdeleted.append hlater)
      · refine .record_bind fun _ _ htell => .record_bind fun _ _ htell' =>
          .pure ?_
        exact hturn.append (.cons htell trivial (.cons htell' trivial .nil))

variable (output : Path)

private theorem recorded_clearOutput_trail (state : σ) :
    Recorded state (clearOutput around.recorded output).run
      (clearOutput around output).run fun _ after events =>
        Trail around holds jobs (some output) state events after := by
  unfold clearOutput
  refine .lift_record_bind (around.recorded_isThere output)
    fun there _ hask => ?_
  cases there with
  | false => exact .pure (.cons hask rfl .nil)
  | true =>
      refine .lift_record_bind (around.recorded_tell _) fun _ _ htell => ?_
      refine .run_record_bind (around.run_recorded_delete output)
        (fun error _ hdelete => ?_) fun there _ hdelete => .pure ?_
      · exact .cons hask rfl
          (.cons htell trivial (.cons hdelete (.inl rfl) .nil))
      · exact .cons hask rfl
          (.cons htell trivial (.cons hdelete (.inl rfl) .nil))

private theorem recorded_send_trail
    (hkeeps : around.Keeps holds jobs (some output)) {state : σ}
    (hstate : holds state) :
    Recorded state (send around.recorded jobs output).run
      (send around jobs output).run fun _ after events =>
        Trail around holds jobs (some output) state events after := by
  unfold send
  cases jobs.isEmpty with
  | true => exact .pure .nil
  | false =>
      refine .run_record_bind (around.run_recorded_makeDirectories output)
        (fun error _ hmade => ?_) fun _ between hmade => ?_
      · exact .cons hmade rfl .nil
      · have hbetween : holds between :=
          hkeeps ⟨state, .made output _, between⟩ hmade rfl hstate
        rw [ExceptT.run_liftM, ExceptT.run_liftM, map_eq_pure_bind,
          map_eq_pure_bind]
        refine (recorded_runFrom_trail (some output) hkeeps _ 0 (by simp)
          (fun _ => id) hbetween).bind fun _ _ later hlater => .pure ?_
        rw [List.append_nil]
        exact .cons hmade rfl hlater

theorem recorded_run_trail (hkeeps : around.Keeps holds jobs (some output))
    (overwrite trackPaths : Bool) {state : σ} (hstate : holds state) :
    Recorded state
      (Execution.run around.recorded jobs output overwrite trackPaths).run
      (Execution.run around jobs output overwrite trackPaths).run
      fun _ after events =>
        Trail around holds jobs (some output) state events after := by
  have hwarn : ∀ state, holds state →
      Recorded state (warnAndSend around.recorded jobs output trackPaths).run
        (warnAndSend around jobs output trackPaths).run
        fun _ after events =>
          Trail around holds jobs (some output) state events after := by
    intro state hstate
    unfold warnAndSend
    cases trackPaths with
    | false => exact recorded_send_trail output hkeeps hstate
    | true =>
        refine .lift_record_bind (around.recorded_tell _)
          fun _ between htell => ?_
        have hbetween : holds between :=
          hkeeps ⟨state, .told _, between⟩ htell trivial hstate
        exact (recorded_send_trail output hkeeps hbetween).mono
          fun _ _ _ hlater => .cons htell trivial hlater
  rw [run_eq, run_eq]
  cases overwrite with
  | false => exact hwarn state hstate
  | true =>
      refine .run_bind (@recorded_clearOutput_trail _ _ holds jobs output state)
        (fun _ _ _ => id) ?_
      intro _ between _ hcleared
      exact (hwarn between (hcleared.invariant hkeeps hstate).2).mono
        fun _ _ _ hlater => hcleared.append hlater

end

end JobChain
