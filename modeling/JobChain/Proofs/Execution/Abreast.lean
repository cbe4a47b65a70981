import JobChain.Proofs.Engine.Footprints
import JobChain.Proofs.Execution.Handover

/-!
# Runs on two stores

Two runs of the same jobs, from states whose stores share all that the jobs use,
go abreast: they ask for the same, they are answered alike, and the stores that
they leave share as much as before. Only ids and times are their own, and with
these the manifest of the last job.
-/

namespace JobChain

open Execution Store

variable {σ : Type}

/-! ## Work from two states -/

/-- What work leads to from one state fits what other work leads to from another
one. -/
def Abreast {α β : Type} (state other : σ) (work : StateM σ α)
    (work' : StateM σ β) (fits : α → σ → β → σ → Prop) : Prop :=
  fits (work state).1 (work state).2 (work' other).1 (work' other).2

namespace Abreast

variable {α β γ δ ε : Type} {state other : σ} {work : StateM σ α}
  {work' : StateM σ β} {next : α → StateM σ γ} {next' : β → StateM σ δ}
  {fits fits' : α → σ → β → σ → Prop} {allFits : γ → σ → δ → σ → Prop}

theorem mono (h : Abreast state other work work' fits)
    (himp : ∀ answer after answer' after', fits answer after answer' after' →
      fits' answer after answer' after') :
    Abreast state other work work' fits' :=
  himp _ _ _ _ h

theorem pure {answer : α} {answer' : β} (h : fits answer state answer' other) :
    Abreast state other (pure answer) (pure answer') fits := h

theorem bind (h : Abreast state other work work' fits)
    (hnext : ∀ answer after answer' after', fits answer after answer' after' →
      Abreast after after' (next answer) (next' answer') allFits) :
    Abreast state other (work >>= next) (work' >>= next') allFits :=
  hnext _ _ _ _ h

theorem run_bind {work : ExceptT ε (StateM σ) α}
    {work' : ExceptT ε (StateM σ) β} {next : α → ExceptT ε (StateM σ) γ}
    {next' : β → ExceptT ε (StateM σ) δ} {like : α → β → Prop}
    {near : σ → σ → Prop} {allFits : Except ε γ → σ → Except ε δ → σ → Prop}
    (h : Abreast state other work.run work'.run
      fun result after result' after' => Matches like result result' ∧
      near after after')
    (herror : ∀ error after after', near after after' →
      allFits (.error error) after (.error error) after')
    (hok : ∀ answer after answer' after', like answer answer' →
      near after after' →
      Abreast after after' (next answer).run (next' answer').run allFits) :
    Abreast state other (work >>= next).run (work' >>= next').run allFits := by
  rw [ExceptT.run_bind, ExceptT.run_bind]
  refine h.bind fun result after result' after' hfits => ?_
  obtain ⟨hmatches, hnear⟩ := hfits
  cases hmatches with
  | ok hlike => exact hok _ _ _ _ hlike hnear
  | error error => exact .pure (herror error after after' hnear)

private theorem lift_bind {work : StateM σ α} {work' : StateM σ β}
    {next : α → ExceptT ε (StateM σ) γ} {next' : β → ExceptT ε (StateM σ) δ}
    {allFits : Except ε γ → σ → Except ε δ → σ → Prop}
    (h : Abreast state other work work' fits)
    (hnext : ∀ answer after answer' after', fits answer after answer' after' →
      Abreast after after' (next answer).run (next' answer').run allFits) :
    Abreast state other (liftM work >>= next).run (liftM work' >>=
      next').run allFits := by
  rw [ExceptT.run_bind, ExceptT.run_bind, ExceptT.run_liftM, ExceptT.run_liftM,
    bind_map_left, bind_map_left]
  exact h.bind hnext

end Abreast

/-! ## Apart from ids and times -/

def JobReport.unnamed (report : JobReport) : JobReport :=
  { report with id := "" }

def JobRun.unstamped (run : JobRun) : JobRun :=
  { run with id := none, started := none, finished := none }

def ChainOutcome.unstamped (outcome : ChainOutcome) : ChainOutcome :=
  { outcome with runs := outcome.runs.map JobRun.unstamped }

def Job.Redates (here : Place) (job : Job) (place : Place)
    (content content' : Content) : Prop :=
  job.isManifest here place ∧ ∃ files time time',
    content = .text (Manifest.content files time).prettyText ∧
      content' = .text (Manifest.content files time').prettyText

private theorem Engine.outcome_runJob_id (registry : Registry) (id id' : String)
    (job : Job) (store : Store) :
    outcome (runJob registry id job) store =
      ((outcome (runJob registry id' job) store).1.map fun report =>
        { report with id }, (outcome (runJob registry id' job) store).2) := by
  have hrunOn : ∀ inputs store, outcome (runOn registry id job inputs) store =
      ((outcome (runOn registry id' job inputs) store).1.map fun report =>
        { report with id },
          (outcome (runOn registry id' job inputs) store).2) := by
    intro inputs store
    unfold runOn
    rw [outcome_bind, outcome_bind]
    rcases outcome (Effort.ofStoreM (makeDirectories job.output.location)) store
      with ⟨_ | _, made⟩
    · rfl
    · dsimp only
      rw [outcome_bind, outcome_bind]
      rcases outcome (tryTasks registry job inputs) made
        with ⟨_ | _ | counters, ran⟩
      · rfl
      · rfl
      · dsimp only
        rw [outcome_bind, outcome_bind]
        rcases outcome (Effort.ofStoreM (change fun store =>
          store.write (job.output.location.child successMark) (.text ""))) ran
            with ⟨_ | _, marked⟩ <;>
          rfl
  rw [runJob_eq, runJob_eq]
  split_ifs
  · rfl
  · rw [outcome_bind, outcome_bind]
    rcases outcome (Effort.list job.input _) store with ⟨_ | paths, listed⟩
    · rfl
    · dsimp only
      rw [outcome_bind, outcome_bind]
      rcases outcome (readAll job.input.format paths) listed
        with ⟨_ | inputs, read⟩
      · rfl
      · exact hrunOn inputs read

/-! ## What surroundings do -/

variable {around : Surroundings σ} {place : HasStore σ} {registry : Registry}
  {scope : Scope} {differ : Place → Content → Content → Prop} {state other : σ}

namespace Surroundings.IsOnStore

variable (h : around.IsOnStore place)
  (htwins : Twins scope differ (place.store state) (place.store other))

include h

private theorem abreast_work {α β ε : Type} {like : α → β → Prop}
    {work : ExceptT ε (StateM Store) α} {work' : ExceptT ε (StateM Store) β}
    (htogether : Together (Twins scope differ) like
      (outcome work (place.store state)) (outcome work' (place.store other))) :
    Abreast state other (place.work work).run (place.work work').run
      fun result after result' after' => Matches like result result' ∧
        Twins scope differ (place.store after) (place.store after') := by
  refine ⟨htogether.answers, ?_⟩
  change Twins scope differ
    (place.store (place.withStore (outcome work (place.store state)).2 state))
    (place.store (place.withStore (outcome work' (place.store other)).2 other))
  rw [h.store_withStore, h.store_withStore]
  exact htogether.stores

include htwins

theorem abreast_isThere {path : Path} (hcovers : scope.Covers path) :
    Abreast state other (around.isThere path) (around.isThere path)
      fun there after there' after' => there' = there ∧
      Twins scope differ (place.store after) (place.store after') := by
  rw [h.isThere_eq]
  exact ⟨htwins.has_eq hcovers, htwins⟩

theorem abreast_makeDirectories {path : Path}
    (hcovers : path.text = "" ∨ scope.Covers path) :
    Abreast state other (around.makeDirectories path).run
      (around.makeDirectories path).run fun result after result' after' =>
        Matches Eq result result' ∧
        Twins scope differ (place.store after) (place.store after') := by
  rw [h.makeDirectories_eq]
  obtain ⟨hanswers, hstores⟩ := htwins.makeDirectories hcovers
  exact h.abreast_work ⟨hanswers, hstores,
    (makeDirectories_spec path (place.store state)).1.isTree htwins.isTree,
    (makeDirectories_spec path (place.store other)).1.isTree htwins.isTree'⟩

theorem abreast_delete {path : Path} (hcovers : scope.Covers path)
    (hholds : scope.Holds path) :
    Abreast state other (around.delete path).run (around.delete path).run
      fun result after result' after' => Matches Eq result result' ∧
        Twins scope differ (place.store after) (place.store after') := by
  rw [h.delete_eq]
  obtain ⟨hanswers, hstores⟩ := htwins.delete hcovers hholds true
  exact h.abreast_work ⟨hanswers, hstores,
    (delete_shrinks path (place.store state)).isTree htwins.isTree,
    (delete_shrinks path (place.store other)).isTree htwins.isTree'⟩

private theorem abreast_tell (line line' : LogLine) :
    Abreast state other (around.tell line) (around.tell line')
      fun _ after _ after' =>
        Twins scope differ (place.store after) (place.store after') := by
  unfold Abreast
  dsimp only
  rwa [h.tell_keeps, h.tell_keeps]

private theorem abreast_observe (run run' : JobRun) :
    Abreast state other (around.observe run) (around.observe run')
      fun _ after _ after' =>
        Twins scope differ (place.store after) (place.store after') := by
  unfold Abreast
  dsimp only
  rwa [h.observe_keeps, h.observe_keeps]

private theorem abreast_now :
    Abreast state other around.now around.now fun _ after _ after' =>
      Twins scope differ (place.store after) (place.store after') := by
  unfold Abreast
  dsimp only
  rwa [h.now_keeps, h.now_keeps]

end Surroundings.IsOnStore

private theorem Surroundings.IsLocal.abreast_runJob
    (h : around.IsLocal place registry) {job : Job} (hhosts : scope.Hosts job)
    (hsame : SameIn scope (place.store state) (place.store other)) :
    Abreast state other (around.runJob job).run (around.runJob job).run
      fun answer after answer' after' =>
        Matches (fun report report' => report'.unnamed = report.unnamed) answer
          answer' ∧ SameIn scope (place.store after) (place.store after') := by
  obtain ⟨id, hrun⟩ := h.runJob_eq job state
  obtain ⟨id', hrun'⟩ := h.runJob_eq job other
  rw [Engine.outcome_runJob_id registry id "" job] at hrun
  rw [Engine.outcome_runJob_id registry id' "" job] at hrun'
  obtain ⟨hanswer, hafter⟩ := Prod.mk.inj hrun
  obtain ⟨hanswer', hafter'⟩ := Prod.mk.inj hrun'
  obtain ⟨hanswers, hstores⟩ :=
    (Engine.keepsTo_runJob "").together hhosts.liesIn hsame
  rw [hafter, hafter'] at hstores
  unfold Abreast
  change Matches _ ((around.runJob job).run state).1
      ((around.runJob job).run other).1 ∧ _
  rw [← hanswer, ← hanswer']
  refine ⟨?_, hstores⟩
  generalize (outcome (Engine.runJob registry "" job) (place.store state)).1 =
    result at hanswers
  generalize (outcome (Engine.runJob registry "" job) (place.store other)).1 =
    result' at hanswers
  cases hanswers with
  | ok hreport => exact .ok (by rw [hreport.1]; rfl)
  | error failure => exact .error failure

theorem Surroundings.IsLocal.keeps_runJob (h : around.IsLocal place registry)
    {job : Job} (hhouses : scope.Houses job)
    (hsame : SameIn scope (place.store state) (place.store state)) :
    SameIn scope (place.store ((around.runJob job).run state).2)
      (place.store ((around.runJob job).run state).2) := by
  obtain ⟨id, hrun⟩ := h.runJob_eq job state
  have hkeeps :=
    (@Engine.keepsTo_runJob registry job id).keeps hhouses.changesIn hsame
  have hafter :
      (outcome (Engine.runJob registry id job) (place.store state)).2 =
      place.store ((around.runJob job).run state).2 := congrArg Prod.snd hrun
  rwa [hafter] at hkeeps

/-! ## Manifests -/

section

variable {job : Job} {store store' : Store}

private theorem Manifest.published_eq (hhouses : scope.Houses job)
    (hsame : SameIn scope store store') {names : List String}
    (hnames : store.names job.output.location = .ok names) :
    published store' job.output.location names =
      published store job.output.location names := by
  refine List.filter_congr fun name hname => ?_
  have hisName : IsName name := by
    obtain ⟨⟨place, _ | _⟩, hfind, hlisted⟩ := bind_eq_ok_iff.1 hnames
    · cases hlisted
    · obtain rfl := Except.ok.inj hlisted
      exact hsame.isTree.isName hname
  obtain ⟨hcovers, -⟩ :=
    hhouses.child hisName.no_slash (Path.isStep_name hisName) hisName.ne_parent
  rw [(hsame.kind_eq hcovers).2]

theorem Manifest.leave_twins (hhouses : scope.Houses job)
    (hpublishes : job.publishes = true) (hsame : SameIn scope store store')
    (time time' : Timestamp) :
    Twins scope (job.Redates scope.here)
      (leave job.output.location time store).2
      (leave job.output.location time' store').2 := by
  have htwins : Shares scope (job.Redates scope.here) store store' :=
    (hsame.mono fun _ _ _ => False.elim).toShares
  refine ⟨?_,
    (leave_refills job.output.location time store).isTree hsame.isTree,
    (leave_refills job.output.location time' store').isTree hsame.isTree'⟩
  rw [leave_eq, leave_eq, hsame.names_eq hhouses.output fun name =>
    hhouses.outputs.admits (List.prefix_append ..)]
  cases hnames : store.names job.output.location with
  | error error => exact htwins
  | ok names =>
      have hmanifest := hhouses.child (by decide : '/' ∉ manifestFile.toList)
        (by decide) (by decide)
      refine (htwins.change (htwins.write hmanifest.1 (.inr ?_))).stores
      rw [Manifest.published_eq hhouses hsame hnames,
        placeOf_child _ (by decide) (by decide) (by decide)]
      exact ⟨⟨hpublishes, rfl⟩, _, _, _, rfl, rfl⟩

end

/-! ## Runs -/

section

variable (h : around.IsOnStore place)

include h

private theorem abreast_deleteEach {paths : List Path}
    (hpaths : ∀ path ∈ paths, scope.Covers path ∧ scope.Holds path)
    (htwins : Twins scope differ (place.store state) (place.store other)) :
    Abreast state other (deleteEach around paths) (deleteEach around paths)
      fun _ after _ after' =>
        Twins scope differ (place.store after) (place.store after') := by
  induction paths generalizing state other with
  | nil => exact .pure htwins
  | cons path rest ih =>
      obtain ⟨hpath, hrest⟩ := List.forall_mem_cons.1 hpaths
      refine (h.abreast_delete htwins hpath.1 hpath.2).bind
        fun result after result' after' hdeleted => ?_
      obtain ⟨hresults, hafter⟩ := hdeleted
      cases hresults with
      | ok _ => exact (h.abreast_tell hafter _ _).bind fun _ _ _ _ htold => ih hrest htold
      | error _ => exact (h.abreast_tell hafter _ _).bind fun _ _ _ _ htold => ih hrest htold

private theorem abreast_deleteMatching {job : Job} (hhouses : scope.Houses job)
    {fronts : List String} (hfronts : ∀ front ∈ fronts, IsFront front)
    (htwins : Twins scope differ (place.store state) (place.store other)) :
    let patterns := fronts.map fun front =>
      Glob.patternIn job.output.location (front ++ "*")
    Abreast state other (deleteMatching around patterns)
    (deleteMatching around patterns) fun _ after _ after' =>
      Twins scope differ (place.store after) (place.store after') := by
  induction fronts generalizing state other with
  | nil => exact .pure htwins
  | cons front rest ih =>
      obtain ⟨hfront, hrest⟩ := List.forall_mem_cons.1 hfronts
      have hinner : ∀ name,
          scope.Admits (placeOf scope.here job.output.location ++ [name]) :=
        fun name => hhouses.outputs.admits (List.prefix_append ..)
      have hlisting :=
        htwins.listing_eq htwins.isTree htwins.isTree' hhouses.ne_empty hfront
          hhouses.output hinner
      have hlist : Abreast state other
          (around.list (Glob.patternIn job.output.location (front ++ "*"))).run
          (around.list (Glob.patternIn job.output.location (front ++ "*"))).run
          fun result after result' after' => (result' = result ∧
            (place.store state).listing
              (Glob.patternIn job.output.location (front ++ "*")) = result) ∧
              Twins scope differ (place.store after) (place.store after') := by
        obtain ⟨hresult, hafter⟩ := h.run_list (Prod.eta _).symm
        obtain ⟨hresult', hafter'⟩ := h.run_list (Prod.eta _).symm
        refine ⟨⟨hresult'.trans (hlisting.trans hresult.symm), hresult.symm⟩,
          ?_⟩
        exact hafter ▸ hafter' ▸ htwins
      simp only [List.map_cons, deleteMatching]
      refine hlist.bind ?_
      rintro _ after result after' ⟨⟨rfl, hlisted⟩, hafter⟩
      cases result with
      | error error =>
          exact (h.abreast_tell hafter _ _).bind fun _ _ _ _ htold =>
            ih hrest htold
      | ok paths =>
          refine (abreast_deleteEach h (fun path hpath => ?_) hafter).bind
            fun _ _ _ _ hdeleted => ih hrest hdeleted
          obtain ⟨name, -, hfound⟩ :=
            of_mem_listing htwins.isTree hhouses.ne_empty hfront hlisted hpath
          exact hhouses.of_isFoundIn hfound

private theorem abreast_finishReported {job : Job} (hhouses : scope.Houses job)
    {answer answer' : Except Failure JobReport}
    (hok : answer'.isOk = answer.isOk)
    (hsame : SameIn scope (place.store state) (place.store other)) :
    Abreast state other (finishReported around job answer)
      (finishReported around job answer') fun _ after _ after' =>
        Twins scope (job.Redates scope.here) (place.store after)
          (place.store after') := by
  unfold finishReported finish
  rw [hok]
  cases answer.isOk with
  | false => exact .pure (hsame.mono fun _ _ _ => False.elim)
  | true =>
      cases hpublishes : job.publishes with
      | false => exact .pure (hsame.mono fun _ _ _ => False.elim)
      | true =>
          obtain ⟨time, hleft⟩ := h.publish_leaves job state
          obtain ⟨time', hleft'⟩ := h.publish_leaves job other
          have hpublish :
              Abreast state other (around.publish job).run
                (around.publish job).run
              fun _ after _ after' =>
                Twins scope (job.Redates scope.here) (place.store after)
                  (place.store after') := by
            have hleave :=
              Manifest.leave_twins hhouses hpublishes hsame time time'
            rwa [← hleft, ← hleft'] at hleave
          refine hpublish.bind fun result after result' after' hafter => ?_
          unfold Abreast
          rcases result with _ | _ <;> rcases result' with _ | _
          · simpa only [h.tell_keeps] using hafter
          · simp only [h.tell_keeps]
            exact hafter
          · simp only [h.tell_keeps]
            exact hafter
          · exact hafter

end

section

variable (h : around.IsLocal place registry)

include h

private theorem abreast_runOne (total index : Nat) {job : Job}
    (hhosts : scope.Hosts job)
    (hsame : SameIn scope (place.store state) (place.store other)) :
    Abreast state other (runOne around total index job)
      (runOne around total index job) fun answer after answer' after' =>
        answer'.1.unstamped = answer.1.unstamped ∧
        answer'.2 = answer.2 ∧
          Twins scope (job.Redates scope.here) (place.store after)
            (place.store after') := by
  have hstore := h.toIsOnStore
  rw [runOne_eq]
  refine (hstore.abreast_tell hsame _ _).bind fun _ _ _ _ hsame => ?_
  refine (hstore.abreast_tell hsame _ _).bind fun _ _ _ _ hsame => ?_
  refine (hstore.abreast_now hsame).bind fun started _ started' _ hsame => ?_
  refine (hstore.abreast_observe hsame _ _).bind fun _ _ _ _ hsame => ?_
  refine (h.abreast_runJob hhosts hsame).bind
    fun answer after answer' after' hran => ?_
  obtain ⟨hanswers, hsame⟩ := hran
  have htaken :
      (takeReport index job (begun job (some started')) answer').1.unstamped =
        (takeReport index job (begun job (some started)) answer).1.unstamped ∧
      (takeReport index job (begun job (some started')) answer').2 =
        (takeReport index job (begun job (some started)) answer).2 := by
    cases hanswers with
    | error failure => exact ⟨rfl, rfl⟩
    | @ok report report' hreport =>
        obtain ⟨id, status, counters, error⟩ := report
        obtain ⟨id', status', counters', error'⟩ := report'
        simp only [JobReport.unnamed, JobReport.mk.injEq, true_and] at hreport
        obtain ⟨rfl, rfl, rfl⟩ := hreport
        exact ⟨rfl, rfl⟩
  have hok : answer'.isOk = answer.isOk := by cases hanswers <;> rfl
  refine (abreast_finishReported hstore hhosts.toHouses hok hsame).bind
    fun _ _ _ _ htwins => ?_
  refine (hstore.abreast_now htwins).bind
    fun finished _ finished' _ htwins => ?_
  refine (hstore.abreast_observe htwins _ _).bind fun _ _ _ _ htwins =>
    .pure ⟨?_, htaken.2, htwins⟩
  obtain ⟨hrun, herror⟩ := htaken
  generalize takeReport index job (begun job (some started)) answer = taken
    at hrun herror ⊢
  generalize takeReport index job (begun job (some started')) answer' = taken'
    at hrun herror ⊢
  obtain ⟨⟨ordinal, name, status, location, id, counters, began, ended, text⟩,
      error?⟩ := taken
  obtain ⟨⟨ordinal', name', status', location', id', counters', began', ended',
      text'⟩, error?'⟩ := taken'
  simp only [JobRun.unstamped, JobRun.mk.injEq, true_and] at hrun
  obtain ⟨rfl, rfl, rfl, rfl, rfl, rfl⟩ := hrun
  obtain rfl : error?' = error? := herror
  rfl

def Redates (here : Place) (jobs : List Job) (place : Place)
    (content content' : Content) : Prop :=
  ∃ job ∈ jobs, job.Redates here place content content'

private theorem abreast_tidyBehind {previous? : Option Job}
    (hprevious : ∀ previous, previous? = some previous → scope.Houses previous)
    (htwins : Twins scope differ (place.store state) (place.store other)) :
    Abreast state other (tidyBehind around previous?)
      (tidyBehind around previous?) fun _ after _ after' =>
        Twins scope differ (place.store after) (place.store after') := by
  cases previous? with
  | none => exact .pure htwins
  | some previous =>
      exact abreast_deleteMatching h.toIsOnStore (hprevious previous rfl)
        (fun _ => Job.isFront_of_mem_fronts) htwins

/-- Jobs of which only the last publishes come to the same, and leave stores
that differ in the time of its manifest alone. -/
theorem abreast_runFrom (total index : Nat) {previous? : Option Job}
    {jobs : List Job}
    (hprevious : ∀ previous, previous? = some previous → scope.Houses previous)
    (hjobs : ∀ job ∈ jobs, scope.Hosts job)
    (hlast : ∀ index job, jobs[index]? = some job → job.publishes = true →
      index + 1 = jobs.length)
    (hsame : SameIn scope (place.store state) (place.store other)) :
    Abreast state other (runFrom around total index previous? jobs)
      (runFrom around total index previous? jobs)
      fun outcome after outcome' after' =>
        outcome'.unstamped = outcome.unstamped ∧
          Twins scope (Redates scope.here jobs) (place.store after)
            (place.store after') := by
  have hstore := h.toIsOnStore
  induction jobs generalizing index previous? state other with
  | nil =>
      exact (hstore.abreast_tell hsame _ _).bind fun _ _ _ _ hafter =>
        .pure ⟨rfl, hafter.mono fun _ _ _ => False.elim⟩
  | cons job rest ih =>
      obtain ⟨hjob, hrest⟩ := List.forall_mem_cons.1 hjobs
      rw [runFrom_cons]
      refine (abreast_runOne h total index hjob hsame).bind ?_
      rintro ⟨run, _⟩ after ⟨run', error?⟩ after' ⟨hrun, rfl, htwins⟩
      replace hrun : run'.unstamped = run.unstamped := hrun
      have htwins' :
          Twins scope (Redates scope.here (job :: rest)) (place.store after)
            (place.store after') :=
        htwins.mono fun _ _ _ hredates => ⟨job, List.mem_cons_self, hredates⟩
      cases error? with
      | some error =>
          refine (hstore.abreast_tell htwins' _ _).bind
            fun _ _ _ _ htwins' => ?_
          refine (hstore.abreast_tell htwins' _ _).bind fun _ _ _ _ htwins' =>
            .pure ⟨?_, htwins'⟩
          simp only [ChainOutcome.unstamped, List.map_cons, hrun]
      | none =>
          cases rest with
          | nil =>
              refine (abreast_tidyBehind h hprevious htwins').bind
                fun _ _ _ _ htwins' => ?_
              unfold runFrom
              rw [bind_assoc]
              refine (hstore.abreast_tell htwins' _ _).bind
                fun _ _ _ _ htwins' => .pure ⟨?_, htwins'⟩
              simp only [ChainOutcome.unstamped, List.map_cons, hrun]
          | cons next others =>
              have hquiet : job.publishes = false := by
                cases hpublishes : job.publishes with
                | false => rfl
                | true => simpa using hlast 0 job rfl hpublishes
              have hsame' :
                  SameIn scope (place.store after) (place.store after') :=
                htwins.mono fun _ _ _ hredates => by
                  simp [hredates.1.1] at hquiet
              refine (abreast_tidyBehind h hprevious hsame').bind
                fun _ _ _ _ hsame' => ?_
              have hlast' : ∀ index job, (next :: others)[index]? = some job →
                  job.publishes = true →
                  index + 1 = (next :: others).length := by
                intro index job hat hpublishes
                have hindex := hlast (index + 1) job hat hpublishes
                simpa using hindex
              have hrun' := ih (index + 1)
                (fun _ hsome => Option.some.inj hsome ▸
                  hjob.toHouses) hrest hlast' hsame'
              refine hrun'.bind fun outcome _ outcome' _ hfits => .pure ⟨?_, ?_⟩
              · have hlater := congrArg ChainOutcome.runs hfits.1
                simp only [ChainOutcome.unstamped, ChainOutcome.mk.injEq]
                  at hfits hlater
                simp only [ChainOutcome.unstamped, List.map_cons, hrun, hlater,
                  hfits.1.2.1, hfits.1.2.2]
              · refine hfits.2.mono fun _ _ _ hmore => ?_
                obtain ⟨later, hlater, hredates⟩ := hmore
                exact ⟨later, List.mem_cons_of_mem _ hlater, hredates⟩

/-- What comes of a run of some jobs is the same apart from ids and times. -/
def ComesAlike (place : HasStore σ) (scope : Scope) (jobs : List Job)
    (result : Except IoError ChainOutcome) (after : σ)
    (result' : Except IoError ChainOutcome) (after' : σ) : Prop :=
  Matches (fun outcome outcome' => outcome'.unstamped = outcome.unstamped)
    result result' ∧
    Twins scope (Redates scope.here jobs) (place.store after)
      (place.store after')

/-- Two stores that are the same as soon as an output has been made for jobs, if
there are any. -/
def OpensAlike (scope : Scope) (jobs : List Job) (output : Path)
    (store other : Store) : Prop :=
  if jobs.isEmpty then SameIn scope store other
  else Together (SameIn scope) Eq (outcome (makeDirectories output) store)
    (outcome (makeDirectories output) other)

omit h in
theorem opensAlike {jobs : List Job} {output : Path}
    (houtput : output.text = "" ∨ scope.Covers output) {store other : Store}
    (hsame : SameIn scope store other) :
    OpensAlike scope jobs output store other := by
  unfold OpensAlike
  split_ifs
  · exact hsame
  · obtain ⟨hanswers, hstores⟩ := hsame.makeDirectories houtput
    exact ⟨hanswers, hstores,
      (makeDirectories_spec output store).1.isTree hsame.isTree,
      (makeDirectories_spec output other).1.isTree hsame.isTree'⟩

variable {jobs : List Job} {output : Path}
  (hjobs : ∀ job ∈ jobs, scope.Hosts job)
  (hlast : ∀ index job, jobs[index]? = some job → job.publishes = true →
    index + 1 = jobs.length)

include hjobs hlast

private theorem abreast_send
    (hopens : OpensAlike scope jobs output (place.store state)
      (place.store other)) :
    Abreast state other (send around jobs output).run
      (send around jobs output).run (ComesAlike place scope jobs) := by
  have hmono : ∀ {store store' : Store}, SameIn scope store store' →
      Twins scope (Redates scope.here jobs) store store' := fun hsame =>
    hsame.mono fun _ _ _ => False.elim
  unfold OpensAlike at hopens
  unfold send
  split_ifs at hopens ⊢
  · exact .pure ⟨.ok rfl, hmono hopens⟩
  · have hmade := h.toIsOnStore.abreast_work hopens
    rw [← h.makeDirectories_eq] at hmade
    refine hmade.run_bind (fun error _ _ hafter => ?_)
      fun _ _ _ _ _ hafter => ?_
    · exact ⟨.error error, hmono hafter⟩
    · rw [ExceptT.run_liftM, map_eq_pure_bind]
      exact (abreast_runFrom h _ 0 (by simp) hjobs hlast hafter).bind
        fun _ _ _ _ hfits => .pure ⟨.ok hfits.1, hfits.2⟩

theorem abreast_warnAndSend (trackPaths : Bool)
    (hopens : OpensAlike scope jobs output (place.store state)
      (place.store other)) :
    Abreast state other (warnAndSend around jobs output trackPaths).run
      (warnAndSend around jobs output trackPaths).run
      (ComesAlike place scope jobs) := by
  unfold warnAndSend
  split_ifs
  · have htold : ∀ line,
        Abreast state other (around.tell line) (around.tell line)
          fun _ after _ after' =>
            OpensAlike scope jobs output (place.store after)
              (place.store after') :=
      fun line => by
        unfold Abreast
        dsimp only
        rwa [h.tell_keeps, h.tell_keeps]
    exact (htold _).lift_bind fun _ _ _ _ hopens =>
      abreast_send h hjobs hlast hopens
  · exact abreast_send h hjobs hlast hopens

omit hjobs hlast in
private theorem abreast_clearOutput (hcovers : scope.Covers output)
    (hholds : scope.Holds output)
    (hsame : SameIn scope (place.store state) (place.store other)) :
    Abreast state other (clearOutput around output).run
      (clearOutput around output).run fun result after result' after' =>
        Matches Eq result result' ∧
        SameIn scope (place.store after) (place.store after') := by
  unfold clearOutput
  refine (h.abreast_isThere hsame hcovers).lift_bind ?_
  rintro _ after there after' ⟨rfl, hasked⟩
  split_ifs
  · refine (h.abreast_tell hasked _ _).lift_bind fun _ _ _ _ htold => ?_
    refine (h.abreast_delete htold hcovers hholds).run_bind
      (fun error _ _ hdeleted => ?_) fun _ _ _ _ _ hdeleted =>
        .pure ⟨.ok rfl, hdeleted⟩
    exact ⟨.error error, hdeleted⟩
  · exact .pure ⟨.ok rfl, hasked⟩

/-- Two runs of the same jobs come to the same, when their stores are the same
in a part that holds all that the jobs use. -/
theorem abreast_run (hcovers : scope.Covers output)
    (hholds : scope.Holds output) (overwrite trackPaths : Bool)
    (hsame : SameIn scope (place.store state) (place.store other)) :
    Abreast state other
      (Execution.run around jobs output overwrite trackPaths).run
      (Execution.run around jobs output overwrite trackPaths).run
      (ComesAlike place scope jobs) := by
  rw [run_eq]
  split_ifs
  · refine (abreast_clearOutput h hcovers hholds hsame).run_bind
      (fun error _ _ hcleared => ?_) fun _ _ _ _ _ hcleared =>
        abreast_warnAndSend h hjobs hlast trackPaths
          (opensAlike (.inr hcovers) hcleared)
    exact ⟨.error error, hcleared.mono fun _ _ _ => False.elim⟩
  · exact abreast_warnAndSend h hjobs hlast trackPaths
      (opensAlike (.inr hcovers) hsame)

end

/-! ## Jobs of a chain -/

namespace IsWired

variable {dataset : Dataset} {jobs : List Job} (h : IsWired dataset jobs)

include h

theorem staysInside {job : Job}
    (hjob : job ∈ jobs) : Engine.StaysInside job := by
  obtain ⟨index, hindex⟩ := List.mem_iff_getElem?.1 hjob
  obtain ⟨assembly, -, -, houtput⟩ := h.output_eq index job hindex
  refine Engine.staysInside_of_named fun entry hentry => ?_
  rw [houtput, Assembly.outputOf] at hentry
  have hside : '/' ∉ sideOutput.toList := by decide
  have hgraph : '/' ∉ graphOutput.toList := by decide
  rcases List.mem_cons.1 hentry with rfl | hentry
  · exact hside
  · obtain rfl := List.mem_singleton.1 hentry
    exact hgraph

theorem input_cases {job : Job} (hjob : job ∈ jobs) :
    job.input.location = dataset.input ∨
    ∃ ordinal, job.input.location = dataset.jobLocation ordinal := by
  obtain ⟨index, hindex⟩ := List.mem_iff_getElem?.1 hjob
  rw [h.input_eq index job hindex]
  cases index with
  | zero => exact .inl rfl
  | succ ordinal => exact .inr ⟨ordinal, rfl⟩

variable {scope : Scope} (houtput : scope.Covers dataset.output)
  (hinner : ∀ place, isBelow (placeOf scope.here dataset.output) place = true →
    scope.shared place)

omit h in
include houtput hinner in
private theorem holds_jobLocation (ordinal : Nat) :
    scope.Covers (dataset.jobLocation ordinal) ∧
    scope.Holds (dataset.jobLocation ordinal) := by
  have hslash := Dataset.no_slash_jobDirectory ordinal
  have hstep := Dataset.isStep_jobDirectory ordinal
  have hparent := Dataset.jobDirectory_ne ordinal
    (by decide : ("..":String).toList.head? ≠ some 'j')
  have hholds : scope.Holds (dataset.jobLocation ordinal) := by
    intro place hbelow
    rw [Dataset.jobLocation, placeOf_child dataset.output hslash hstep hparent]
      at hbelow
    refine hinner place
      (isBelow_iff.2 ⟨(List.prefix_append ..).trans hbelow, ?_⟩)
    rintro rfl
    have hlength := hbelow.length_le
    rw [List.length_append, List.length_singleton] at hlength
    omega
  exact ⟨houtput.child hslash hstep hparent hholds, hholds⟩

include houtput hinner

theorem houses {job : Job} (hjob : job ∈ jobs) : scope.Houses job := by
  obtain ⟨ordinal, hlocation⟩ := h.isLaidOut.exists_location hjob
  obtain ⟨hcovers, hholds⟩ := holds_jobLocation houtput hinner ordinal
  refine ⟨h.staysInside hjob, fun hempty => ?_, hlocation ▸ hcovers,
    hlocation ▸ hholds⟩
  have hsteps := dataset.steps_jobLocation ordinal
  rw [← hlocation] at hsteps
  simp [Path.steps_of_empty hempty] at hsteps

theorem hosts (hinput : scope.Covers dataset.input)
    (hinputs : ∀ name,
      scope.Admits (placeOf scope.here dataset.input ++ [name])) {job : Job}
    (hjob : job ∈ jobs) : scope.Hosts job where
  toHouses := h.houses houtput hinner hjob
  input := by
    rcases h.input_cases hjob with hlocated | ⟨before, hlocated⟩ <;>
      rw [hlocated]
    · exact hinput
    · exact (holds_jobLocation houtput hinner before).1
  inputs := by
    rcases h.input_cases hjob with hlocated | ⟨before, hlocated⟩ <;>
      rw [hlocated]
    · exact hinputs
    · exact fun name =>
        (holds_jobLocation houtput hinner before).2.admits
          (List.prefix_append ..)

end IsWired

end JobChain
