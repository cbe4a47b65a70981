import JobChain.Proofs.Execution.Abreast
import JobChain.Proofs.Execution.Handover

/-!
# What a run gives evidence of

A mark in the directory of a job tells that the job has succeeded, in this run
or in an earlier one that has not been cleared. A manifest tells that there was
a report, and that of a job that has succeeded lists all that it has committed.
-/

namespace JobChain

open Engine Execution Store

variable {σ : Type} {around : Surroundings σ} {place : HasStore σ}
  {registry : Registry}

/-! ## Files that were there before -/

namespace Store

variable {before between after : Store} {other : Place}

/-- A file that is at a place was there before. -/
def Inherits (before after : Store) (other : Place) : Prop :=
  ∀ content, after.fileAt? other = some content →
    before.fileAt? other = some content

theorem Inherits.of_eq (h : after.fileAt? other = before.fileAt? other) :
    Inherits before after other :=
  fun _ hfile => h ▸ hfile

theorem Inherits.trans (h : Inherits before between other)
    (h' : Inherits between after other) : Inherits before after other :=
  fun content hfile => h content (h' content hfile)

private theorem Shrinks.inherits {aim : Place → Prop}
    (h : Shrinks before after aim)
    (other : Place) : Inherits before after other := by
  intro content hfile
  by_contra hnot
  rcases h.less other with heq | hnone
  · exact hnot (fileAt?_congr heq ▸ hfile)
  · simp [fileAt?, hnone] at hfile

end Store

/-- A file at an output that was there before a run, and that the run has not
cleared. -/
def IsLeftOver (start : Store) (output : Path) (overwrite : Bool)
    (other : Place) (content : Content) : Prop :=
  start.fileAt? other = some content ∧
    ¬(overwrite = true ∧ IsErasable start output)

private theorem isLeftOver_of_opened {start opened : Store} {output : Path}
    {overwrite : Bool} {other : Place} (htree : IsTree start)
    (hgrows : Grows (start.cleared output overwrite) opened)
    (hbelow : placeOf start.here output <+: other) {content : Content}
    (hfile : opened.fileAt? other = some content) :
    IsLeftOver start output overwrite other content := by
  rw [hgrows.fileAt?_eq] at hfile
  refine ⟨(shrinks_cleared output overwrite start).inherits other content hfile,
    ?_⟩
  rintro ⟨rfl, herasable⟩
  have hgone := (herasable.loses_erased htree).gone other hbelow
  rw [fileAt?_eq_some] at hfile
  exact absurd (hfile.symm.trans hgone) (by simp)

/-! ## Around one call -/

private theorem Call.isOk_of_succeeds {call : Call σ}
    (h : call.succeeds = true) : call.answer.isOk = true := by
  cases hanswer : call.answer with
  | ok report => rfl
  | error error => simp [Call.succeeds, hanswer] at h

namespace Serves

variable {job : Job} {call : Call σ} {before between : Store}
  (hserves : Serves around place job call before between)

include hserves

private theorem exists_leave (hpublishes : job.publishes = true)
    (hsucceeds : call.succeeds = true) :
    ∃ time,
      between =
        (Manifest.leave job.output.location time
          (place.store call.after)).2 := by
  have hfinished := hserves.finished
  generalize place.store call.after = ran at hfinished
  cases hfinished with
  | published time _ _ => exact ⟨time, rfl⟩
  | kept hnone =>
      rw [hnone (Call.isOk_of_succeeds hsucceeds)] at hpublishes
      cases hpublishes

variable (hlocal : around.IsLocal place registry) (htree : IsTree before)

include hlocal htree

theorem settles :
    Settles ((jobPrint job).touches before.here) before
      (place.store call.after) := by
  obtain ⟨id, hrun⟩ := hlocal.runJob_eq job call.before
  rw [hserves.ran, hserves.before_eq] at hrun
  have hsettles := ((@keepsTo_runJob registry job id).settles htree).1
  rwa [hrun] at hsettles

private theorem settles_of_fails (hfails : call.succeeds = false) :
    Settles ((trialPrint job).touches before.here) before
      (place.store call.after) := by
  obtain ⟨id, hrun⟩ := hlocal.runJob_eq job call.before
  rw [hserves.ran, hserves.before_eq] at hrun
  refine settles_of_runJob htree hrun fun report hreport hstatus => ?_
  have hanswer : call.answer = .ok report := hreport
  simp [Call.succeeds, hanswer, hstatus] at hfails

theorem here_eq : between.here = before.here :=
  hserves.manifest.here_eq.trans (hserves.settles hlocal htree).here_eq

theorem isTree : IsTree between :=
  hserves.manifest.isTree ((hserves.settles hlocal htree).isTree htree)

variable (hinside : StaysInside job)

include hinside

private theorem fileAt?_eq_beside {other : Place}
    (hbeside : ¬job.place before.here <+: other) :
    between.fileAt? other = before.fileAt? other := by
  have hsettles := hserves.settles hlocal htree
  rw [fileAt?_congr (hserves.manifest.kept other fun hmanifest => hbeside ?_)]
  · exact hsettles.fileAt?_eq other fun htouches =>
      hbeside (below_of_touches hinside htouches)
  · rw [hsettles.here_eq] at hmanifest
    exact Job.place_of_isManifest hmanifest

variable {home : Place} (hlength : (job.place before.here).length = home.length)

include hlength

private theorem inherits_mark
    (hmark : call.succeeds = true → job.place before.here ≠ home) :
    Inherits before between (home ++ [successMark]) := by
  have hsettles := hserves.settles hlocal htree
  have hother : between.fileAt? (home ++ [successMark]) =
      (place.store call.after).fileAt? (home ++ [successMark]) := by
    refine fileAt?_congr (hserves.manifest.kept _ fun hmanifest => ?_)
    rw [hsettles.here_eq] at hmanifest
    have hnames := (List.append_inj hmanifest.2 hlength.symm).2
    exact absurd hnames (by decide)
  refine .of_eq (hother.trans ?_)
  by_cases hsucceeds : call.succeeds = true
  · refine hsettles.fileAt?_eq _ fun htouches => hmark hsucceeds ?_
    have hbelow := below_of_touches hinside htouches
    exact (List.prefix_of_prefix_length_le hbelow (List.prefix_append ..)
      (Nat.le_of_eq hlength)).eq_of_length hlength
  · refine (hserves.settles_of_fails hlocal htree
      (by simpa using hsucceeds)).fileAt?_eq _ ?_
    exact not_touches_trialPrint hinside hlength (by decide) (by decide)

private theorem inherits_manifest
    (hmanifest : job.publishes = true → call.answer.isOk = true →
      job.place before.here ≠ home) :
    Inherits before between (home ++ [manifestFile]) := by
  have hsettles := hserves.settles hlocal htree
  have hran : (place.store call.after).fileAt? (home ++ [manifestFile]) =
      before.fileAt? (home ++ [manifestFile]) := by
    refine hsettles.fileAt?_eq _ fun htouches => ?_
    rcases of_touches_jobPrint htouches with hmark | htrial
    · exact absurd (List.append_inj hmark hlength.symm).2 (by decide)
    · exact not_touches_trialPrint hinside hlength (by decide)
        (by decide) htrial
  refine .of_eq (Eq.trans ?_ hran)
  have hfinished := hserves.finished
  generalize place.store call.after = ran at hsettles hfinished
  cases hfinished with
  | kept _ => rfl
  | published time hreport hpublishes =>
      refine fileAt?_congr ((leave_refills job.output.location time ran).kept _
        fun hplace => ?_)
      rw [hsettles.here_eq] at hplace
      exact hmanifest hpublishes hreport
        (List.append_inj hplace hlength.symm).1.symm

end Serves

/-! ## Along a run -/

section

variable {jobs rest : List Job} {previous? : Option Job} {before after : Store}
  {sent : List (Call σ)}

private theorem Passage.reaches {serves : Job → Call σ → Store → Store → Prop}
    {behind : Option Job → Store → Store → Prop}
    (h : Passage serves behind previous? rest before sent after) {index : Nat}
    {call : Call σ} (hcall : sent[index]? = some call) :
    ∃ job store served, rest[index]? = some job ∧
      Passage serves behind previous? (rest.take index) before
        (sent.take index) store ∧
      serves job call store served ∧
      (call.succeeds = false ∧ after = served ∨ call.succeeds = true ∧
        ∃ tidied, behind (jobBefore previous? rest index) served tidied ∧
          Passage serves behind (some job) (rest.drop (index + 1)) tidied
            (sent.drop (index + 1)) after) := by
  induction h generalizing index with
  | done => simp at hcall
  | @failed _ job rest first before after haround hfails =>
      cases index with
      | zero =>
          obtain rfl := Option.some.inj hcall
          exact ⟨job, before, after, rfl, .done, haround, .inl ⟨hfails, rfl⟩⟩
      | succ index => simp at hcall
  | @passed previous? job rest first later before between tidied after haround
      hsucceeds hbehind hrest ih =>
      cases index with
      | zero =>
          obtain rfl := Option.some.inj hcall
          exact ⟨job, before, between, rfl, .done, haround,
            .inr ⟨hsucceeds, tidied, hbehind, hrest⟩⟩
      | succ index =>
          obtain ⟨reached, store, served, hjob, hcourse, hserves, hends⟩ :=
            ih hcall
          have hbefore :
              jobBefore (some job) rest index =
                jobBefore previous? (job :: rest) (index + 1) := by
            cases index <;> rfl
          rw [hbefore] at hends
          exact ⟨reached, store, served, hjob,
            .passed haround hsucceeds hbehind hcourse, hserves, hends⟩

variable {granted : Prop} {output : Path} {other here : Place}

private theorem FreeUpkeep.inherits (hlocal : around.IsLocal place registry)
    (h : FreeUpkeep around place granted output previous? rest before
      sent after)
    (hhere : before.here = here) (htree : IsTree before)
    (hserves : ∀ (index : Nat) (call : Call σ) (job : Job)
      (store served : Store),
      sent[index]? = some call → rest[index]? = some job → store.here = here →
      IsTree store → Serves around place job call store served →
      Inherits store served other) :
    after.here = here ∧ IsTree after ∧ Inherits before after other := by
  induction h with
  | done => exact ⟨hhere, htree, .of_eq rfl⟩
  | failed haround _ =>
      exact ⟨(haround.here_eq hlocal htree).trans hhere,
        haround.isTree hlocal htree,
        hserves 0 _ _ _ _ rfl rfl hhere htree haround⟩
  | passed haround _ hbehind _ ih =>
      have hserved := haround.isTree hlocal htree
      have hshrinks := (hbehind hserved).shrinks
      obtain ⟨hhere', htree', hlater⟩ := ih
        (hshrinks.here_eq.trans ((haround.here_eq hlocal htree).trans hhere))
        (hshrinks.isTree hserved) fun index call job store served hcall hjob =>
          hserves (index + 1) call job store served hcall hjob
      exact ⟨hhere', htree',
        ((hserves 0 _ _ _ _ rfl rfl hhere htree haround).trans
          (hshrinks.inherits other)).trans hlater⟩

end

private theorem IsLaidOut.length_place {dataset : Dataset} {jobs : List Job}
    (h : IsLaidOut dataset jobs) {index index' : Nat} {job job' : Job}
    (hjob : jobs[index]? = some job) (hjob' : jobs[index']? = some job')
    (here : Place) : (job.place here).length = (job'.place here).length := by
  simp [h.place_eq hjob, h.place_eq hjob']

private theorem IsLaidOut.below_output {dataset : Dataset} {jobs : List Job}
    (h : IsLaidOut dataset jobs) {index : Nat} {job : Job}
    (hjob : jobs[index]? = some job) (here : Place) (rest : Place) :
    placeOf here dataset.output <+: job.place here ++ rest := by
  rw [h.place_eq hjob, List.append_assoc]
  exact List.prefix_append ..

private theorem IsLaidOut.location_ne {dataset : Dataset} {jobs : List Job}
    (h : IsLaidOut dataset jobs) {index : Nat} {job : Job}
    (hjob : jobs[index]? = some job) : job.output.location.text ≠ "" := by
  intro hempty
  have hsteps := Path.steps_of_empty hempty
  simp [h.location_eq index job hjob, dataset.steps_jobLocation] at hsteps

theorem IsWired.sharesFormat {dataset : Dataset} {jobs : List Job}
    (h : IsWired dataset jobs) {index : Nat} {job : Job}
    (hjob : jobs[index]? = some job) : SharesFormat job := by
  obtain ⟨assembly, -, -, houtput⟩ := h.output_eq index job hjob
  exact ⟨assembly.dataset.sideFormat, by rw [houtput]; rfl⟩

private theorem IsLaidOut.index_eq_of_place {dataset : Dataset}
    {jobs : List Job} (h : IsLaidOut dataset jobs) {index index' : Nat}
    {job job' : Job} (hjob : jobs[index]? = some job)
    (hjob' : jobs[index']? = some job') {here : Place}
    (hplace : job.place here = job'.place here) : index = index' := by
  have hbelow := List.prefix_refl (job.place here)
  exact h.index_eq hjob hjob' hbelow (hplace ▸ hbelow)

namespace FreeUpkeep

variable {dataset : Dataset} {jobs : List Job} {granted : Prop}
  {opened final : Store} {sent : List (Call σ)}
  (hlocal : around.IsLocal place registry) (hwired : IsWired dataset jobs)
  (h : FreeUpkeep around place granted dataset.output none jobs opened
    sent final)
  (htree : IsTree opened) {index : Nat} {job : Job}
  (hjob : jobs[index]? = some job)

include hlocal hwired h htree hjob

private theorem inherits_mark
    (hfails : ∀ call, sent[index]? = some call → call.succeeds = false) :
    Inherits opened final (job.place opened.here ++ [successMark]) := by
  have hlaid := hwired.isLaidOut
  refine (FreeUpkeep.inherits hlocal h rfl htree ?_).2.2
  intro index' call job' store served hcall hjob' hhere htree' hserves
  refine hserves.inherits_mark hlocal htree'
    (hwired.staysInside (List.mem_of_getElem? hjob')) (hhere ▸
      hlaid.length_place hjob' hjob _) fun hsucceeds hplace => ?_
  rw [hhere] at hplace
  obtain rfl := hlaid.index_eq_of_place hjob' hjob hplace
  rw [hfails call hcall] at hsucceeds
  cases hsucceeds

private theorem inherits_manifest
    (hnone : ∀ call, sent[index]? = some call → job.publishes = true →
      call.answer.isOk = false) :
    Inherits opened final (job.place opened.here ++ [manifestFile]) := by
  have hlaid := hwired.isLaidOut
  refine (FreeUpkeep.inherits hlocal h rfl htree ?_).2.2
  intro index' call job' store served hcall hjob' hhere htree' hserves
  refine hserves.inherits_manifest hlocal htree'
    (hwired.staysInside (List.mem_of_getElem? hjob')) (hhere ▸
      hlaid.length_place hjob' hjob _) fun hpublishes hreport hplace => ?_
  rw [hhere] at hplace
  obtain rfl := hlaid.index_eq_of_place hjob' hjob hplace
  obtain rfl := Option.some.inj (hjob'.symm.trans hjob)
  rw [hnone call hcall hpublishes] at hreport
  cases hreport

omit h in
private theorem inherits_before {store : Store}
    (hcourse : FreeUpkeep around place granted dataset.output none
      (jobs.take index) opened (sent.take index) store) {other : Place}
    (hbelow : job.place opened.here <+: other) : store.here = opened.here ∧
    IsTree store ∧ Inherits opened store other := by
  refine FreeUpkeep.inherits hlocal hcourse rfl htree ?_
  intro index' call' job' store' served' _ hjob' hhere htree' hserves
  obtain ⟨hlt, hjob'⟩ : index' < index ∧ jobs[index']? = some job' := by
    simpa [List.getElem?_take] using hjob'
  refine .of_eq (hserves.fileAt?_eq_beside hlocal htree'
    (hwired.staysInside (List.mem_of_getElem? hjob')) fun hbelow' => ?_)
  rw [hhere] at hbelow'
  exact hwired.isLaidOut.not_below hjob hjob' (by omega) hbelow hbelow'

/-- The directory of a job that publishes, when the job has succeeded and the
run is over. -/
theorem last (hpublishes : job.publishes = true) {call : Call σ}
    (hcall : sent[index]? = some call) (hsucceeds : call.succeeds = true) :
    ∃ inputs made ran time, (place.store call.before).here = opened.here ∧
      IsTree (place.store call.before) ∧
      Completes registry job inputs (place.store call.before) made ran
        (place.store call.after) ∧
      ∀ other, job.place opened.here <+: other →
        Inherits opened (place.store call.before) other ∧
          final.fileAt? other = (Manifest.leave job.output.location time
            (place.store call.after)).2.fileAt? other := by
  have hlaid := hwired.isLaidOut
  have hinside := hwired.staysInside (List.mem_of_getElem? hjob)
  have hlast := hlaid.last_of_publishes index job hjob hpublishes
  obtain ⟨job', store, served, hjob', hcourse, hserves, hends⟩ :=
    Passage.reaches h hcall
  obtain rfl := Option.some.inj (hjob'.symm.trans hjob)
  have hcourse {other : Place} (hbelow : job'.place opened.here <+: other) :=
    inherits_before hlocal hwired htree hjob hcourse hbelow
  obtain ⟨hhere, htree', -⟩ := hcourse (List.prefix_refl _)
  obtain ⟨id, report, hrun, hstatus⟩ := hserves.succeeds hlocal hsucceeds
  obtain ⟨inputs, made, ran, hcompletes⟩ :=
    completes_of_runJob hinside htree' hrun hstatus
  obtain ⟨time, hleave⟩ := hserves.exists_leave hpublishes hsucceeds
  obtain ⟨hfails, -⟩ | ⟨-, tidied, hbehind, hrest⟩ := hends
  · rw [hfails] at hsucceeds
    cases hsucceeds
  have htidies := hbehind (hserves.isTree hlocal htree')
  obtain rfl : tidied = final := by
    rw [hlast, List.drop_length] at hrest
    generalize sent.drop jobs.length = later at hrest
    cases hrest
    rfl
  rw [hserves.before_eq]
  refine ⟨inputs, made, ran, time, hhere, htree', hcompletes,
    fun other hbelow => ⟨(hcourse hbelow).2.2, ?_⟩⟩
  rw [← hleave]
  refine fileAt?_congr (htidies.shrinks.kept other ?_)
  rintro ⟨previous, hprevious, hpasses⟩
  rw [hserves.here_eq hlocal htree', hhere] at hpasses
  exact hlaid.jobBefore_ne hjob hprevious (by omega) hbelow hpasses

end FreeUpkeep

/-! ## What an outcome tells -/

section

variable {jobs : List Job} {outcome : ChainOutcome} {events : List (Event σ)}
  {index : Nat} {run : JobRun}

private theorem AllSucceeded.succeeded_iff_call
    (h : AllSucceeded jobs outcome events)
    (hrun : outcome.runs[index]? = some run) : run.status = .succeeded ↔
    ∃ call, (calls events)[index]? = some call ∧ call.succeeds = true := by
  have hruns := congrArg List.length h.named
  have hcalls := congrArg List.length h.jobs_sent
  simp only [List.length_map] at hruns hcalls
  have hlt : index < (calls events).length := by
    rw [hcalls, ← hruns]
    exact (List.getElem?_eq_some_iff.1 hrun).1
  exact iff_of_true (h.succeeded run (List.mem_of_getElem? hrun))
    ⟨_, List.getElem?_eq_getElem hlt, h.answers _ (List.getElem_mem hlt)⟩

private theorem FailedAt.succeeded_iff_call {failed : Nat}
    (h : FailedAt failed jobs outcome events)
    (hrun : outcome.runs[index]? = some run) : run.status = .succeeded ↔
    ∃ call, (calls events)[index]? = some call ∧ call.succeeds = true := by
  have hanswer : (calls events)[index]?.map Call.succeeds =
      (List.replicate failed true ++ [false])[index]? := by
    rw [← h.answers, List.getElem?_map]
  have hiff : (∃ call, (calls events)[index]? = some call ∧
      call.succeeds = true) ↔
      (calls events)[index]?.map Call.succeeds = some true := by
    rw [Option.map_eq_some_iff]
  rw [hiff, hanswer]
  rcases Nat.lt_trichotomy index failed with hbefore | rfl | hbehind
  · refine iff_of_true
      (h.succeeded run (List.mem_of_getElem? (i := index) ?_)) ?_
    · rw [List.getElem?_take_of_lt hbefore, hrun]
    · rw [List.getElem?_append_left (by simpa using hbefore),
        List.getElem?_replicate_of_lt hbefore]
  · obtain ⟨stopped, -, hstopped, hstatus, -⟩ := h.stopped
    obtain rfl := Option.some.inj (hstopped.symm.trans hrun)
    refine iff_of_false (by simp [hstatus]) ?_
    rw [List.getElem?_append_right (by simp)]
    simp
  · have hwaits : run ∈ outcome.runs.drop (failed + 1) := by
      refine List.mem_of_getElem? (i := index - (failed + 1)) ?_
      rw [List.getElem?_drop, ← hrun]
      congr 1
      omega
    rw [h.waiting] at hwaits
    obtain ⟨job, -, rfl⟩ := List.mem_map.1 hwaits
    refine iff_of_false (by simp [JobRun.pending]) ?_
    rw [List.getElem?_eq_none (by simp; omega)]
    simp

theorem IsRun.length_eq (h : IsRun jobs (.ok outcome) events) :
    outcome.runs.length = jobs.length := by
  have hnamed : outcome.runs.map nameOf = jobs.map fun job =>
      nameOf (JobRun.pending job) := by
    rcases h.ends with hall | ⟨failed, hfailed⟩
    · exact hall.named
    · exact hfailed.named
  simpa using congrArg List.length hnamed

private theorem IsRun.succeeded_iff_call (h : IsRun jobs (.ok outcome) events)
    (hrun : outcome.runs[index]? = some run) :
    run.status = .succeeded ↔ ∃ call, (calls events)[index]? = some call ∧
    call.succeeds = true := by
  rcases h.ends with hall | ⟨failed, hfailed⟩
  · exact hall.succeeded_iff_call hrun
  · exact hfailed.succeeded_iff_call hrun

end

/-! ## Evidence -/

/-- What the directory of a job gives evidence of when a run is over. -/
structure Testifies (place : HasStore σ) (registry : Registry) (output : Path)
    (overwrite : Bool) (start final : Store) (job : Job) (run : JobRun)
    (call? : Option (Call σ)) : Prop where
  sent : ∀ call ∈ call?, call.job = job
  mark : run.status ≠ .succeeded → ∀ content,
    final.fileAt? (job.place start.here ++ [successMark]) = some content →
    IsLeftOver start output overwrite (job.place start.here ++
      [successMark]) content
  manifest : ∀ content, final.fileAt? (job.place start.here ++ [manifestFile]) =
    some content →
    IsLeftOver start output overwrite (job.place start.here ++
      [manifestFile]) content ∨
      job.publishes = true ∧ ∃ call ∈ call?, call.answer.isOk = true
  listed : run.status = .succeeded → job.publishes = true → ∃ call ∈ call?,
    ∃ paths inputs, job.input.files (place.store call.before) = .ok paths ∧
    List.Forall₂ ((place.store call.before).Reads job.input.format) paths
      inputs ∧
    (∀ other content,
      (tableOf registry job inputs).Holds job start.here other content →
      final.fileAt? other = some content) ∧
    (IsAccepted (job.output.location.child manifestFile) →
      (place.store call.after).node? (job.place start.here ++ [manifestFile]) ≠
        some .directory →
      ∃ files time, final.fileAt? (job.place start.here ++ [manifestFile]) =
          some (.text (Manifest.content files time).prettyText) ∧
        Lists (committedNames registry job inputs)
          (fun name => isPrimaryName name = true ∧
          ∃ content,
            IsLeftOver start output overwrite (job.place start.here ++
              [name]) content) files)

section

variable {dataset : Dataset} {jobs : List Job} {overwrite : Bool}
  {start opened : Store} {index : Nat} {job : Job} {run : JobRun}

private theorem testifies_of_idle (hwired : IsWired dataset jobs)
    (htree : IsTree start)
    (hgrows : Grows (start.cleared dataset.output overwrite) opened)
    (hjob : jobs[index]? = some job) (hstatus : run.status ≠ .succeeded) :
    Testifies place registry dataset.output overwrite start opened job run
      none where
  sent := by simp
  mark _ content :=
    isLeftOver_of_opened htree hgrows (hwired.isLaidOut.below_output hjob _ _)
  manifest content hfile :=
    .inl
      (isLeftOver_of_opened htree hgrows
        (hwired.isLaidOut.below_output hjob _ _) hfile)
  listed hsucceeded := absurd hsucceeded hstatus

private theorem FreeUpkeep.testifies (hlocal : around.IsLocal place registry)
    (hwired : IsWired dataset jobs) (htree : IsTree start)
    (hgrows : Grows (start.cleared dataset.output overwrite) opened)
    {granted : Prop} {sent : List (Call σ)} {final : Store}
    (h : FreeUpkeep around place granted dataset.output none jobs opened
      sent final)
    (hjob : jobs[index]? = some job) (hstatus : run.status = .succeeded ↔
      ∃ call, sent[index]? = some call ∧ call.succeeds = true) :
    Testifies place registry dataset.output overwrite start final job run
      sent[index]? := by
  have hshrinks := shrinks_cleared dataset.output overwrite start
  have htree' : IsTree opened := hgrows.isTree (hshrinks.isTree htree)
  have hhere : opened.here = start.here := hgrows.here_eq.trans hshrinks.here_eq
  have hleft : ∀ name content, opened.fileAt? (job.place start.here ++ [name]) =
      some content →
      IsLeftOver start dataset.output overwrite (job.place start.here ++
        [name]) content :=
    fun name content =>
      isLeftOver_of_opened htree hgrows (hwired.isLaidOut.below_output hjob _ _)
  constructor
  case sent =>
    intro call hcall
    obtain ⟨job', _, _, hjob', -, hserves, -⟩ := Passage.reaches h hcall
    rw [hserves.job_eq, Option.some.inj (hjob'.symm.trans hjob)]
  case mark =>
    intro hnot content hfile
    refine hleft _ _ (hhere ▸
      FreeUpkeep.inherits_mark hlocal hwired h htree' hjob
        (fun call hcall => ?_)
      content (hhere ▸ hfile))
    by_contra hsucceeds
    exact hnot (hstatus.2 ⟨call, hcall, by simpa using hsucceeds⟩)
  case manifest =>
    intro content hfile
    by_cases hreported : job.publishes = true ∧ ∃ call ∈ sent[index]?,
        call.answer.isOk = true
    · exact .inr hreported
    · refine .inl
        (hleft _ _ (hhere ▸
          FreeUpkeep.inherits_manifest hlocal hwired h htree' hjob
        (fun call hcall hpublishes => ?_) content (hhere ▸ hfile)))
      by_contra hreport
      exact hreported ⟨hpublishes, call, hcall, by simpa using hreport⟩
  case listed =>
    intro hsucceeded hpublishes
    obtain ⟨call, hcall, hsucceeds⟩ := hstatus.1 hsucceeded
    obtain ⟨inputs, made, ran, time, hhere', hbefore, hcompletes, hends⟩ :=
      FreeUpkeep.last hlocal hwired h htree' hjob hpublishes hcall hsucceeds
    obtain ⟨paths, hfiles, hreads⟩ := hcompletes.reads
    rw [hhere] at hends
    have hback : (place.store call.before).here = start.here :=
      hhere'.trans hhere
    refine ⟨call, hcall, paths, inputs, hfiles, hreads,
      fun other content hholds => ?_,
      fun haccepted hfree => ?_⟩
    · have hfile := hcompletes.file_leave time (hback.symm ▸ hholds)
      obtain ⟨side, task, output, format, -, -⟩ := hholds
      exact (hends _ (List.prefix_append ..)).2.trans hfile
    · obtain ⟨files, hmanifest, hlists⟩ :=
        hcompletes.exists_manifest time (hwired.sharesFormat hjob) hbefore
          (hwired.isLaidOut.location_ne hjob) haccepted (hback.symm ▸ hfree)
      rw [homeOf, hback] at hmanifest hlists
      refine ⟨files, time, (hends _ (List.prefix_append ..)).2.trans hmanifest,
        hlists.mono fun name hfound => ⟨hfound.1, ?_⟩⟩
      obtain ⟨content, hfile⟩ := hfound.2
      exact ⟨content,
        hleft name content ((hends _ (List.prefix_append ..)).1 content hfile)⟩

end

/-- What a run gives evidence of: a mark in the directory of a job that has not
succeeded is left over from before the run, and so is a manifest there unless
the job publishes and has been reported on. The manifest of a job that has
succeeded lists in order all that it has committed, and nothing else but what is
left over. -/
theorem run_testifies (hlocal : around.IsLocal place registry) {chain : Chain}
    {entries : List (Plan.Entry × Stage)} {packages : Store}
    {home? : Option String} {dataset : Dataset} {jobs : List Job}
    (hgrown : Plan.enterAll {} entries = .ok chain.plan)
    (hcompile : (chain.compile packages home? dataset).2 = .ok jobs) {start : σ}
    (htree : IsTree (place.store start))
    (hhere : (place.store start).node? (place.store start).here =
      some .directory)
    (overwrite trackPaths : Bool) :
    ∃ result final, ∃ events : List (Event σ),
      (Execution.run around jobs dataset.output overwrite trackPaths).run
        start = (result, final) ∧
      (Execution.run around.recorded jobs dataset.output overwrite
        trackPaths).run (start, []) =
        (result, final, events) ∧
      ∀ outcome, result = .ok outcome → outcome.runs.length = jobs.length ∧
        ∀ (index : Nat) (job : Job) (run : JobRun), jobs[index]? = some job →
          outcome.runs[index]? = some run →
          Testifies place registry dataset.output overwrite (place.store start)
            (place.store final) job run (calls events)[index]? := by
  have hwired := isWired_of_compile hgrown hcompile
  have hlocation : ∀ job ∈ jobs, ∃ ordinal,
      job.output.location = dataset.jobLocation ordinal :=
    fun _ => hwired.isLaidOut.exists_location
  obtain ⟨events, hrun, ⟨opened, hgrows, hproceeds⟩, hisRun⟩ :=
    ((recorded_run_opened hlocal.toIsOnStore hlocation overwrite trackPaths
      hhere).and
      (recorded_run around jobs dataset.output overwrite trackPaths start)) []
  rw [List.nil_append] at hrun
  generalize (Execution.run around jobs dataset.output overwrite trackPaths).run
    start = ran at *
  obtain ⟨result, final⟩ := ran
  refine ⟨result, final, events, rfl, hrun, fun outcome houtcome => ?_⟩
  subst houtcome
  refine ⟨hisRun.length_eq, fun index job run hjob hrun' => ?_⟩
  have hstatus := hisRun.succeeded_iff_call hrun'
  generalize calls events = sent at hproceeds hstatus
  cases hproceeds with
  | idle =>
      rw [List.getElem?_nil]
      exact testifies_of_idle hwired htree hgrows hjob fun hsucceeded => by
        simpa using hstatus.1 hsucceeded
  | sent hopen hpassage =>
      exact FreeUpkeep.testifies hlocal hwired htree hgrows hpassage
        hjob hstatus

/-! ## A copy -/

def copyingStage : Stage :=
  { name := "copiar", kind := .mapOnly, map := "identity" }

def soloChain (stage : Stage) : Chain where
  plan := { mode := .openMaps, blocks := [⟨0, [stage]⟩] }
  options := SortedMap.empty.insert Options.package "stages.jar"
  trackPaths := false

def soloJobs (stage : Stage) : List Job :=
  (((soloChain stage).compile {} none countingDataset).2.toOption).getD []

def soloRun (stage : Stage) (start : Store) :
    Except IoError ChainOutcome × Store :=
  (Execution.run ordinary (soloJobs stage) countingDataset.output false
    false).run start

def soloEvents (stage : Stage) (start : Store) : List (Event Store) :=
  ((Execution.run ordinary.recorded (soloJobs stage) countingDataset.output
    false false).run (start, [])).2.2

def statusesOf (result : Except IoError ChainOutcome) : List JobStatus :=
  result.toOption.elim [] fun outcome => outcome.runs.map JobRun.status

theorem run_testifies_copied :
    statusesOf (soloRun copyingStage countedStore).1 = [.succeeded] ∧
      ∃ files time, (soloRun copyingStage countedStore).2.fileAt? ["out",
        "job-0", manifestFile] =
          some (.text (Manifest.content files time).prettyText) ∧
        Lists ["part-m-00000.jsonl"] (fun _ => False) files := by
  have hgrown : Plan.enterAll {} [(.ofMap, copyingStage)] =
      .ok (soloChain copyingStage).plan := by rfl
  have hcompile : ((soloChain copyingStage).compile {} none countingDataset).2 =
      .ok (soloJobs copyingStage) := by rfl
  have hstatus : statusesOf (soloRun copyingStage countedStore).1 =
      [.succeeded] := by decide +kernel
  have hcalls : ∀ call ∈ (calls (soloEvents copyingStage countedStore))[0]?,
      (call.job.input.files call.before).toOption.map
          (fun paths =>
            paths.map (call.before.recordsAt call.job.input.format)) =
            some [[countedRecord]] ∧
        call.after.node? ["out", "job-0", manifestFile] = none := by
    decide +kernel
  have hcommitted : ∀ job ∈ (soloJobs copyingStage)[0]?, job.publishes = true ∧
      job.output.location = ⟨"out/job-0"⟩ ∧ job.place [] = ["out", "job-0"] ∧
      committedNames .builtin job [[countedRecord]] =
        ["part-m-00000.jsonl"] := by
    decide +kernel
  obtain ⟨result, final, events, hresult, hrun, htestifies⟩ :=
    run_testifies isLocal_ordinary hgrown hcompile
      (show IsTree (itself.store countedStore) from isTree_countedStore)
      (by decide) false false
  change soloRun copyingStage countedStore = _ at hresult
  obtain rfl : soloEvents copyingStage countedStore = events := by
    rw [soloEvents, hrun]
  rw [hresult] at hstatus ⊢
  refine ⟨hstatus, ?_⟩
  obtain ⟨outcome, rfl⟩ : ∃ outcome, result = .ok outcome := by
    cases result with
    | error error => cases hstatus
    | ok outcome => exact ⟨outcome, rfl⟩
  obtain ⟨run, hrun, hsucceeded⟩ : ∃ run, outcome.runs = [run] ∧
      run.status = .succeeded := by
    simpa [statusesOf, Except.toOption, List.map_eq_singleton_iff] using hstatus
  obtain ⟨hlength, htestifies⟩ := htestifies outcome rfl
  obtain ⟨job, hjob⟩ : ∃ job, soloJobs copyingStage = [job] :=
    List.length_eq_one_iff.1 (by rw [← hlength, hrun]; rfl)
  obtain ⟨hpublishes, hlocation, hplace, hnames⟩ :=
    hcommitted job (by simp [hjob])
  have hevidence := htestifies 0 job run (by simp [hjob]) (by simp [hrun])
  obtain ⟨call, hcall, paths, inputs, hfiles, hreads, -, hlisted⟩ :=
    hevidence.listed hsucceeded hpublishes
  obtain ⟨hinputs, hfree⟩ := hcalls call hcall
  rw [hevidence.sent call hcall, show job.input.files call.before =
    .ok paths from hfiles] at hinputs
  obtain rfl : inputs = [[countedRecord]] := by
    rw [← map_recordsAt hreads]
    exact Option.some.inj hinputs
  have hhere : job.place countedStore.here = ["out", "job-0"] := hplace
  have hunlike :
      call.after.node? (job.place countedStore.here ++ [manifestFile]) ≠
        some .directory := by
    rw [hhere]
    exact fun hdirectory => absurd (hfree.symm.trans hdirectory) (by simp)
  obtain ⟨files, time, hfile, hlists⟩ :=
    hlisted (hlocation ▸ ⟨by decide, by decide, by decide⟩) hunlike
  rw [show job.place (itself.store countedStore).here = ["out",
    "job-0"] from hplace] at hfile
  refine ⟨files, time, hfile, hnames ▸ hlists.mono ?_⟩
  rintro name ⟨-, content, hleft, -⟩
  have hfresh :
      countedStore.fileAt? (job.place countedStore.here ++ [name]) = none :=
    fileAt?_countedStore
        (by decide : "out" ≠ "in") (hhere ▸ List.prefix_append ["out"] _)
  exact absurd (hfresh.symm.trans hleft) (by simp)

end JobChain
