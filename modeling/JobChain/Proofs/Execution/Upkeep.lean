import JobChain.Proofs.Engine.Manifests
import JobChain.Proofs.Execution.Tidying
import JobChain.Proofs.Store.Erasing

/-!
# The upkeep of a run

How the files go from job to job: what the engine changes, what is left behind
it, and what is taken behind the job before. The whole course of the files
follows the course of the jobs.
-/

namespace JobChain

open Execution Store

variable {σ : Type} {around : Surroundings σ} {place : HasStore σ}

/-! ## Behind one job -/

/-- What is left behind an engine: the manifest of a job that publishes, once
there is a report. -/
inductive IsFinished (job : Job) (answer : Except Failure JobReport)
    (store : Store) : Store → Prop where
  | published (time : Timestamp) (hreport : answer.isOk = true)
      (hpublishes : job.publishes = true) :
      IsFinished job answer store
        (Manifest.leave job.output.location time store).2
  | kept (hnone : answer.isOk = true → job.publishes = false) :
      IsFinished job answer store store

private theorem IsFinished.refills {job : Job}
    {answer : Except Failure JobReport} {store after : Store}
    (h : IsFinished job answer store after) :
    Refills store after (job.isManifest store.here) := by
  cases h with
  | published time _ hpublishes =>
      exact (leave_refills _ _ _).mono fun other hother => ⟨hpublishes, hother⟩
  | kept => exact .refl _ _

private theorem recorded_finishReported_files (h : around.IsOnStore place)
    (job : Job) (answer : Except Failure JobReport) (state : σ) :
    Recorded state (finishReported around.recorded job answer)
      (finishReported around job answer) fun _ after _ =>
        IsFinished job answer (place.store state) (place.store after) := by
  unfold finishReported finish
  cases hreport : answer.isOk with
  | false => exact .pure (.kept (by simp [hreport]))
  | true =>
      cases hpublishes : job.publishes with
      | false => exact .pure (.kept fun _ => hpublishes)
      | true =>
          simp only [if_true, Surroundings.run_recorded_publish,
            Surroundings.recorded_tell]
          refine .record_bind fun result after hpublish => ?_
          obtain ⟨time, hleave⟩ := h.publish_leaves job state
          rw [hpublish] at hleave
          have hfinished :
              IsFinished job answer (place.store state)
                (place.store after) := by
            rw [hleave]
            exact .published time hreport hpublishes
          cases result with
          | error error =>
              refine (recorded_record _ _).mono ?_
              rintro _ last _ ⟨htold, -⟩
              rwa [h.run_tell htold]
          | ok done => exact .pure hfinished

/-! ## One job -/

structure Serves (around : Surroundings σ) (place : HasStore σ) (job : Job)
    (call : Call σ) (before after : Store) : Prop where
  job_eq : call.job = job
  before_eq : place.store call.before = before
  ran : (around.runJob job).run call.before = (call.answer, call.after)
  finished : IsFinished job call.answer (place.store call.after) after

theorem Serves.manifest {job : Job} {call : Call σ} {before after : Store}
    (h : Serves around place job call before after) :
    Refills (place.store call.after) after
      (job.isManifest (place.store call.after).here) :=
  h.finished.refills

structure Attends (place : HasStore σ) (job : Job) (call : Call σ)
    (before after : Store) : Prop where
  job_eq : call.job = job
  before_eq : place.store call.before = before
  confined : ChangesAt before (place.store call.after) fun other =>
      job.place before.here <+: other
  manifest : Refills (place.store call.after) after (job.isManifest before.here)

theorem Attends.changesAt {job : Job} {call : Call σ} {before after : Store}
    (h : Attends place job call before after) :
    ChangesAt before after fun other => job.place before.here <+: other :=
  h.confined.trans (h.manifest.toChangesAt.mono fun _ =>
    Job.place_of_isManifest)

private theorem Serves.attends {jobs : List Job}
    (hconfined : around.IsConfined place jobs) {job : Job} (hjob : job ∈ jobs)
    {call : Call σ} {before after : Store}
    (h : Serves around place job call before after) :
    Attends place job call before after := by
  have hchanges := hconfined job hjob call.before
  rw [h.ran, h.before_eq] at hchanges
  exact ⟨h.job_eq, h.before_eq, hchanges, hchanges.here_eq ▸ h.manifest⟩

private theorem recorded_runOne_files (h : around.IsOnStore place)
    (total index : Nat) (job : Job) (state : σ) :
    Recorded state (runOne around.recorded total index job)
      (runOne around total index job) fun _ after events => ∃ call,
      calls events = [call] ∧
      Serves around place job call (place.store state) (place.store after) := by
  rw [runOne_eq, runOne_eq]
  simp only [Surroundings.recorded_tell, Surroundings.recorded_now,
    Surroundings.recorded_observe, Surroundings.run_recorded_runJob]
  refine .record_bind fun _ _ htell => .record_bind fun _ _ htell' => ?_
  refine .record_bind fun started _ hnow =>
    .record_bind fun _ before hobserve => ?_
  refine .record_bind fun answer ran hran => ?_
  have hbefore : place.store before = place.store state := by
    rw [h.run_observe hobserve, h.run_now hnow, h.run_tell htell',
      h.run_tell htell]
  refine ((recorded_finishReported_files h job answer ran).and
    (recorded_finishReported around job answer ran)).bind
    fun _ _ finishing hfinishing => ?_
  refine .record_bind fun finished _ hnow' => .record_bind fun _ _ hobserve' =>
    .pure ?_
  obtain ⟨hmanifest, hcalls, -⟩ := hfinishing
  refine ⟨⟨job, before, answer,
    ran⟩, by simp [Event.call?, hcalls], rfl, hbefore, hran, ?_⟩
  rw [h.run_observe hobserve', h.run_now hnow']
  exact hmanifest

/-! ## Jobs in order -/

def TidiesBehind (granted : Prop) (output : Path) : Option Job → Store →
    Store → Prop
  | none, before, after => after = before
  | some job, before, after => Tidies granted output Job.fronts job before after

theorem TidiesBehind.mono {granted granted' : Prop} {output : Path}
    {previous? : Option Job} {before after : Store}
    (h : TidiesBehind granted output previous? before after)
    (himp : granted' → granted) :
    TidiesBehind granted' output previous? before after := by
  cases previous? with
  | none => exact h
  | some previous => exact Deletes.mono h himp

theorem TidiesBehind.isTree {granted : Prop} {output : Path}
    {previous? : Option Job} {before after : Store}
    (h : TidiesBehind granted output previous? before after)
    (htree : IsTree before) : IsTree after := by
  cases previous? with
  | none => exact (show after = before from h) ▸ htree
  | some previous => exact (Deletes.shrinks h).isTree htree

/-- How the files go while jobs are sent behind another one, told by what is
done around each call and behind it. -/
inductive Passage (around : Job → Call σ → Store → Store → Prop)
    (behind : Option Job → Store → Store → Prop) :
    Option Job → List Job → Store → List (Call σ) → Store → Prop where
  | done {previous? : Option Job} {store : Store} :
      Passage around behind previous? [] store [] store
  | failed {previous? : Option Job} {job : Job} {rest : List Job}
      {call : Call σ}
      {before after : Store} (haround : around job call before after)
      (hfails : call.succeeds = false) :
      Passage around behind previous? (job :: rest) before [call] after
  | passed {previous? : Option Job} {job : Job} {rest : List Job}
      {call : Call σ} {later : List (Call σ)}
      {before between tidied after : Store}
      (haround : around job call before between)
      (hsucceeds : call.succeeds = true)
      (hbehind : behind previous? between tidied)
      (hrest : Passage around behind (some job) rest tidied later after) :
      Passage around behind previous? (job :: rest) before (call :: later) after

abbrev Upkeep (place : HasStore σ) (granted : Prop) (output : Path) :
    Option Job → List Job → Store → List (Call σ) → Store → Prop :=
  Passage (Attends place) (TidiesBehind granted output)

abbrev FreeUpkeep (around : Surroundings σ) (place : HasStore σ)
    (granted : Prop) (output : Path) : Option Job → List Job → Store →
    List (Call σ) → Store → Prop :=
  Passage (Serves around place) fun previous? between tidied =>
    IsTree between → TidiesBehind granted output previous? between tidied

theorem Passage.imp {serves : Job → Call σ → Store → Store → Prop}
    {behind behind' : Option Job → Store → Store → Prop}
    {previous? : Option Job} {jobs : List Job} {before after : Store}
    {sent : List (Call σ)}
    (himp : ∀ previous? between tidied, behind previous? between tidied →
      behind' previous? between tidied)
    (h : Passage serves behind previous? jobs before sent after) :
    Passage serves behind' previous? jobs before sent after := by
  induction h with
  | done => exact .done
  | failed haround hfails => exact .failed haround hfails
  | passed haround hsucceeds hbehind _ ih =>
      exact .passed haround hsucceeds (himp _ _ _ hbehind) ih

theorem FreeUpkeep.mono {granted granted' : Prop} {output : Path}
    {previous? : Option Job} {jobs : List Job} {before after : Store}
    {sent : List (Call σ)}
    (h : FreeUpkeep around place granted output previous? jobs before
      sent after)
    (himp : granted' → granted) :
    FreeUpkeep around place granted' output previous? jobs before sent after :=
  Passage.imp (fun _ _ _ hbehind htree => (hbehind htree).mono himp) h

private theorem FreeUpkeep.upkeep {granted : Prop} {output : Path}
    {previous? : Option Job} {jobs rest : List Job} {before after : Store}
    {sent : List (Call σ)} (hconfined : around.IsConfined place jobs)
    (hrest : ∀ job ∈ rest, job ∈ jobs) (htree : IsTree before)
    (h : FreeUpkeep around place granted output previous? rest before sent
      after) :
    Upkeep place granted output previous? rest before sent after := by
  induction h with
  | done => exact .done
  | failed hserves hfails =>
      exact .failed
        (hserves.attends hconfined (hrest _ List.mem_cons_self)) hfails
  | passed hserves hsucceeds hbehind _ ih =>
      have hattends := hserves.attends hconfined (hrest _ List.mem_cons_self)
      have htidies := hbehind (hattends.changesAt.isTree htree)
      exact .passed hattends hsucceeds htidies
        (ih (fun job hjob => hrest job (.tail _ hjob))
          (htidies.isTree (hattends.changesAt.isTree htree)))

def tidyBehind (around : Surroundings σ) : Option Job → StateM σ Unit
  | none => pure ()
  | some previous => deleteMatching around (intermediates previous)

theorem runFrom_cons (around : Surroundings σ) (total index : Nat)
    (previous? : Option Job) (job : Job) (rest : List Job) :
    runFrom around total index previous? (job :: rest) = do
      match ← runOne around total index job with
      | (run, some error) =>
          around.tell ⟨.error, error.message⟩
          around.tell ⟨.error, "error en la cadena: se cancelan los " ++
            Text.natText (total - index - 1) ++ " job(s) restantes"⟩
          return {
            runs := run :: rest.map JobRun.pending
            failedIndex := some index
            error := some error.message }
      | (run, none) =>
          tidyBehind around previous?
          let outcome ← runFrom around total (index + 1) (some job) rest
          return { outcome with runs := run :: outcome.runs } := by
  cases previous? <;> rfl

section Jobs

variable (h : around.IsOnStore place) {jobs : List Job} {dataset : Dataset}
  (hnul : '\x00' ∉ dataset.output.text.toList)
  (hlocation : ∀ job ∈ jobs, ∃ ordinal,
    job.output.location = dataset.jobLocation ordinal)

include h hnul hlocation

private theorem recorded_tidyBehind_files {previous? : Option Job}
    (hprevious : ∀ previous, previous? = some previous → previous ∈ jobs)
    (state : σ) :
    Recorded state (tidyBehind around.recorded previous?)
      (tidyBehind around previous?) fun _ after events => IsQuiet events ∧
      (IsTree (place.store state) →
        TidiesBehind (IsGranted events) dataset.output previous?
          (place.store state) (place.store after)) := by
  cases previous? with
  | none => exact .pure ⟨⟨rfl, rfl⟩, fun _ => rfl⟩
  | some previous =>
      have hquiet :=
        recorded_deleteMatching around (intermediates previous) state
      by_cases htree : IsTree (place.store state)
      · obtain ⟨ordinal, hordinal⟩ :=
          hlocation previous (hprevious previous rfl)
        have hnul' := dataset.no_nul_jobLocation hnul ordinal
        rw [← hordinal] at hnul'
        have hdeletes := recorded_deleteMatching_files hordinal hnul' h
          (by decide : Job.fronts.Nodup) (fun _ => id) htree
        exact (hquiet.and hdeletes).mono fun _ _ _ hfits =>
          ⟨hfits.1, fun _ => hfits.2⟩
      · exact hquiet.mono fun _ _ _ hquiet =>
          ⟨hquiet, fun htree' => absurd htree' htree⟩

private theorem recorded_runFrom_files (total index : Nat)
    {previous? : Option Job} {rest : List Job}
    (hprevious : ∀ previous, previous? = some previous → previous ∈ jobs)
    (hrest : ∀ job ∈ rest, job ∈ jobs) (state : σ) :
    Recorded state (runFrom around.recorded total index previous? rest)
      (runFrom around total index previous? rest) fun _ after events =>
        FreeUpkeep around place (IsGranted events) dataset.output previous? rest
          (place.store state) (calls events) (place.store after) := by
  induction rest generalizing index previous? state with
  | nil =>
      simp only [runFrom, Surroundings.recorded_tell]
      refine .record_bind fun _ after htell => .pure ?_
      rw [h.run_tell htell]
      exact .done
  | cons job rest ih =>
      have hjob := hrest job List.mem_cons_self
      simp only [runFrom_cons, Surroundings.recorded_tell]
      refine ((recorded_runOne_files h total index job state).and
        (recorded_runOne around total index job state)).bind ?_
      rintro ⟨run, error?⟩ between turn ⟨⟨call, hcalls, hserves⟩, hturn⟩
      have hsucceeds : call.succeeds = error?.isNone := by
        obtain ⟨call', hcalls', -, hsucceeds⟩ := hturn.calls_eq
        obtain rfl : call' = call := by simpa using hcalls'.symm.trans hcalls
        exact hsucceeds
      cases error? with
      | some error =>
          refine .record_bind fun _ _ htell =>
            .record_bind fun _ after htell' => .pure ?_
          rw [h.run_tell htell', h.run_tell htell]
          simpa [hcalls, Event.call?] using Passage.failed hserves hsucceeds
      | none =>
          refine (recorded_tidyBehind_files h hnul hlocation hprevious
            between).bind ?_
          rintro - tidied deleted ⟨hquiet, htidies⟩
          refine (ih (index + 1) (fun _ hsome => Option.some.inj hsome ▸ hjob)
            (fun other hother => hrest other (.tail _ hother)) tidied).bind
              fun _ after later hlater => .pure ?_
          have hpassage := Passage.passed hserves hsucceeds
            (fun htree => (htidies htree).mono
              fun hall : IsGranted (turn ++ (deleted ++ later)) =>
                (isGranted_append.1 (isGranted_append.1 hall).2).1)
            (hlater.mono fun hall : IsGranted (turn ++ (deleted ++ later)) =>
              (isGranted_append.1 (isGranted_append.1 hall).2).2)
          simpa [hcalls, hquiet.1] using hpassage

/-! ## Whole runs -/

omit h hnul hlocation in
private theorem recorded_clearOutput_files (h : around.IsOnStore place)
    (output : Path) (state : σ) :
    Recorded state (clearOutput around.recorded output).run
      (clearOutput around output).run fun _ after _ => place.store after =
      (place.store state).erased output := by
  unfold clearOutput erased
  refine .lift_record_bind (around.recorded_isThere output)
    fun there asked hask => ?_
  obtain ⟨hthere, hasked⟩ := h.run_isThere hask
  rw [← hthere]
  cases there with
  | false => exact .pure hasked
  | true =>
      refine .lift_record_bind (around.recorded_tell _) fun _ told htell => ?_
      have hdeleted : ∀ result after, (around.delete output).run told =
          (result, after) →
          place.store after =
            (Store.delete output true (place.store state)).2 := by
        intro result after hdelete
        rw [← hasked, ← h.run_tell htell, h.run_delete hdelete]
      refine .run_record_bind (around.run_recorded_delete output)
        (fun error after hdelete => ?_) fun there after hdelete => .pure ?_
      · exact hdeleted _ after hdelete
      · exact hdeleted _ after hdelete

/-- How the files go once there is room for the output: nothing is sent, or jobs
take their course. -/
inductive Proceeds (output : Path) (opened : Store)
    (course : List (Call σ) → Store → Prop) : List (Call σ) → Store → Prop where
  | idle : Proceeds output opened course [] opened
  | sent {sent : List (Call σ)} {final : Store}
      (hopen : IsOpen opened (startOf opened.here output) output.steps)
      (hcourse : course sent final) :
      Proceeds output opened course sent final

abbrev Conducts (place : HasStore σ) (granted : Prop) (output : Path)
    (jobs : List Job) (opened : Store) : List (Call σ) → Store → Prop :=
  Proceeds output opened (Upkeep place granted output none jobs opened)

omit h hnul hlocation in
theorem Proceeds.imp {output : Path} {opened final : Store}
    {sent : List (Call σ)} {course course' : List (Call σ) → Store → Prop}
    (himp : ∀ sent final, course sent final → course' sent final)
    (h : Proceeds output opened course sent final) :
    Proceeds output opened course' sent final := by
  cases h with
  | idle => exact .idle
  | sent hopen hcourse => exact .sent hopen (himp _ _ hcourse)

omit h hnul hlocation in
theorem Conducts.mono {granted granted' : Prop} {output : Path}
    {opened final : Store} {sent : List (Call σ)}
    (h : Conducts place granted output jobs opened sent final)
    (himp : granted' → granted) :
    Conducts place granted' output jobs opened sent final :=
  h.imp fun _ _ => Passage.imp fun _ _ _ htidies => htidies.mono himp

omit hnul

private theorem recorded_send_files {state : σ}
    (hhere : dataset.output.text = "" →
    (place.store state).node? (place.store state).here = some .directory) :
    Recorded state (send around.recorded jobs dataset.output).run
      (send around jobs dataset.output).run fun _ after events =>
        ∃ opened, Grows (place.store state) opened ∧
          Proceeds dataset.output opened
            (FreeUpkeep around place (IsGranted events) dataset.output none
              jobs opened)
            (calls events) (place.store after) := by
  unfold send
  cases jobs.isEmpty with
  | true => exact .pure ⟨_, .refl _, .idle⟩
  | false =>
      have hmake := makeDirectories_spec dataset.output (place.store state)
      refine .run_record_bind
        (around.run_recorded_makeDirectories dataset.output)
        (fun error after hmade => ?_) fun _ between hmade => ?_
      · rw [h.run_makeDirectories hmade] at hmake
        exact ⟨_, hmake.1, .idle⟩
      · rw [h.run_makeDirectories hmade] at hmake
        obtain ⟨hgrows, hdirectory⟩ := hmake
        have hplace : '\x00' ∉ dataset.output.text.toList ∧
            IsOpen (place.store between)
              (startOf (place.store between).here dataset.output)
              dataset.output.steps := by
          rcases hdirectory rfl with hempty | hdirectory
          · have habsolute : dataset.output.isAbsolute = false := by
              simp [Path.isAbsolute, hempty]
            refine ⟨by simp [hempty], ?_⟩
            rw [Path.steps_of_empty hempty, isOpen_nil_iff, startOf, habsolute,
              hgrows.here_eq]
            exact hgrows.directory (hhere hempty)
          · obtain ⟨haccepted, hopen⟩ := isDirectory_iff.1 hdirectory
            exact ⟨haccepted.no_nul, hopen⟩
        rw [ExceptT.run_liftM, ExceptT.run_liftM, map_eq_pure_bind,
          map_eq_pure_bind]
        refine (recorded_runFrom_files h hplace.1 hlocation _ 0 (by simp)
          (fun _ => id) between).bind fun _ after later hlater => .pure ?_
        refine ⟨_, hgrows, .sent hplace.2 ?_⟩
        simpa [isGranted_cons, Event.call?] using hlater

private theorem recorded_warnAndSend_files (trackPaths : Bool) {state : σ}
    (hhere : dataset.output.text = "" →
      (place.store state).node? (place.store state).here = some .directory) :
    Recorded state
      (warnAndSend around.recorded jobs dataset.output trackPaths).run
      (warnAndSend around jobs dataset.output trackPaths).run
      fun _ after events =>
        ∃ opened, Grows (place.store state) opened ∧
          Proceeds dataset.output opened
            (FreeUpkeep around place (IsGranted events) dataset.output none
              jobs opened)
            (calls events) (place.store after) := by
  unfold warnAndSend
  cases trackPaths with
  | false => exact recorded_send_files h hlocation hhere
  | true =>
      refine .lift_record_bind (around.recorded_tell _) fun _ told htell => ?_
      have hsend := @recorded_send_files _ _ _ h _ dataset hlocation told
      rw [h.run_tell htell] at hsend
      refine (hsend hhere).mono fun _ after later hlater => ?_
      simpa [isGranted_cons, Event.call?] using hlater

/-- Room for an output: what was there is taken if that is wanted, and then
directories are made. -/
def Opens (output : Path) (overwrite : Bool) (start opened : Store) : Prop :=
  ∃ cleared, Shrinks start cleared
      (fun other => overwrite = true ∧ placeOf start.here output <+: other) ∧
    Grows cleared opened

theorem recorded_run_opened (overwrite trackPaths : Bool) {state : σ}
    (hhere : (place.store state).node? (place.store state).here =
      some .directory) :
    Recorded state
      (Execution.run around.recorded jobs dataset.output overwrite
        trackPaths).run
      (Execution.run around jobs dataset.output overwrite trackPaths).run
      fun _ after events =>
        ∃ opened,
          Grows ((place.store state).cleared dataset.output overwrite) opened ∧
          Proceeds dataset.output opened
            (FreeUpkeep around place (IsGranted events) dataset.output none
              jobs opened)
            (calls events) (place.store after) := by
  rw [run_eq, run_eq]
  cases overwrite with
  | false => exact recorded_warnAndSend_files h hlocation trackPaths fun _ => hhere
  | true =>
      refine .run_bind ((recorded_clearOutput_files h dataset.output state).and
        (recorded_clearOutput around dataset.output state)) ?_ ?_
      · rintro error after events ⟨hcleared, hopening⟩
        refine ⟨_, .refl _, ?_⟩
        rw [hopening.quiet.1, hcleared]
        exact .idle
      · rintro _ between events ⟨hcleared, hopening⟩
        refine (recorded_warnAndSend_files h hlocation trackPaths fun htext =>
          ?_).mono fun _ after later hlater => ?_
        · rw [hcleared, erased_of_empty htext]
          exact hhere
        · obtain ⟨opened, hgrows, hproceeds⟩ := hlater
          rw [hcleared] at hgrows
          refine ⟨opened, hgrows, ?_⟩
          rw [calls_append, hopening.quiet.1, List.nil_append]
          exact hproceeds.imp fun _ _ hupkeep =>
            FreeUpkeep.mono hupkeep fun hall => (isGranted_append.1 hall).2

theorem recorded_run_passage (overwrite trackPaths : Bool) {state : σ}
    (hhere : (place.store state).node? (place.store state).here =
      some .directory) :
    Recorded state
      (Execution.run around.recorded jobs dataset.output overwrite
        trackPaths).run
      (Execution.run around jobs dataset.output overwrite trackPaths).run
      fun _ after events =>
        ∃ opened, Opens dataset.output overwrite (place.store state) opened ∧
          Proceeds dataset.output opened
            (FreeUpkeep around place (IsGranted events) dataset.output none
              jobs opened)
            (calls events) (place.store after) := by
  refine (recorded_run_opened h hlocation overwrite trackPaths hhere).mono
    fun _ _ _ hfits => ?_
  obtain ⟨opened, hgrows, hproceeds⟩ := hfits
  exact ⟨opened, ⟨_, shrinks_cleared dataset.output overwrite _, hgrows⟩,
    hproceeds⟩

omit h hlocation in
theorem Opens.here_eq {output : Path} {overwrite : Bool} {start opened : Store}
    (h : Opens output overwrite start opened) : opened.here = start.here := by
  obtain ⟨cleared, hshrinks, hgrows⟩ := h
  rw [hgrows.here_eq, hshrinks.here_eq]

omit h hlocation in
theorem Opens.isTree {output : Path} {overwrite : Bool} {start opened : Store}
    (h : Opens output overwrite start opened)
    (htree : IsTree start) : IsTree opened := by
  obtain ⟨cleared, hshrinks, hgrows⟩ := h
  exact hgrows.isTree (hshrinks.isTree htree)

end Jobs

theorem recorded_run_files (h : around.IsOnStore place) {jobs : List Job}
    (hconfined : around.IsConfined place jobs) {dataset : Dataset}
    (hlocation : ∀ job ∈ jobs, ∃ ordinal,
      job.output.location = dataset.jobLocation ordinal)
    (overwrite trackPaths : Bool) {state : σ}
    (htree : IsTree (place.store state))
    (hhere : (place.store state).node? (place.store state).here =
      some .directory) :
    Recorded state
      (Execution.run around.recorded jobs dataset.output overwrite
        trackPaths).run
      (Execution.run around jobs dataset.output overwrite trackPaths).run
      fun _ after events =>
        ∃ opened, Opens dataset.output overwrite (place.store state) opened ∧
          Conducts place (IsGranted events) dataset.output jobs opened
            (calls events) (place.store after) := by
  refine (recorded_run_passage h hlocation overwrite trackPaths hhere).mono
    fun _ _ events hfits => ?_
  obtain ⟨opened, hopens, hproceeds⟩ := hfits
  exact ⟨opened, hopens, hproceeds.imp fun _ _ hupkeep =>
    FreeUpkeep.upkeep hconfined (fun _ => id) (hopens.isTree htree) hupkeep⟩

end JobChain
