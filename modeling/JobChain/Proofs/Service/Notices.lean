import JobChain.Proofs.Execution.Ledger
import JobChain.Proofs.Execution.Trails
import JobChain.Proofs.Service.Acceptance

/-!
# Chains on record

What a service has on record about a chain follows its run notice by notice,
whatever the engine answers and whatever is noted about other chains in between.
When the engine breaks off instead of answering, the record stands still.
-/

namespace JobChain

open Execution

variable {σ : Type}

/-! ## Notices -/

inductive Notice where
  | started (time : Timestamp)
  | stands (run : JobRun)
  | ended (outcome : ChainOutcome) (time : Timestamp)
  | stuck (error : IoError) (time : Timestamp)

namespace Notice

def apply : Notice → ChainInfo → ChainInfo
  | .started time, info => info.start time
  | .stands run, info => info.updateJob run
  | .ended outcome time, info => info.applyOutcome outcome time
  | .stuck error time, info => info.fail (ChainError.io error).message time

def closing (time : Timestamp) : Except IoError ChainOutcome → Notice
  | .ok outcome => .ended outcome time
  | .error error => .stuck error time

@[simp] theorem id_apply (notice : Notice) (info : ChainInfo) :
    (notice.apply info).id = info.id := by
  cases notice <;> rfl

def applyAll (notices : List Notice) (info : ChainInfo) : ChainInfo :=
  notices.foldl (fun info notice => notice.apply info) info

private theorem applyAll_stands (shown : List JobRun) (info : ChainInfo) :
    applyAll (shown.map .stands) info =
      { info with jobs := updateAll info.jobs shown } := by
  induction shown generalizing info with
  | nil => rfl
  | cons run rest ih => exact ih (info.updateJob run)

end Notice

namespace Service

def note (id : String) (notice : Notice) (service : Service) : Service :=
  service.report id notice.apply

def noteAll (notices : List (String × Notice)) (service : Service) : Service :=
  notices.foldl (fun service entry => service.note entry.1 entry.2) service

def noticesOf (id : String) (notices : List (String × Notice)) : List Notice :=
  (notices.filter fun entry => entry.1 = id).map Prod.snd

@[simp] theorem isLost_note (service : Service) (id other : String)
    (notice : Notice) :
    (service.note id notice).isLost other = service.isLost other :=
  isLost_report service id notice.apply other

private theorem find?_update (service : Service) (id other : String)
    (notice : Notice) : (service.update other notice.apply).find? id =
      if other = id then (service.find? id).map notice.apply
      else service.find? id := by
  have hsame : ((fun info => decide (info.id = id)) ∘ fun info =>
      if info.id = other then notice.apply info else info) =
        fun info : ChainInfo => decide (info.id = id) := by
    funext info
    by_cases hother : info.id = other <;> simp [hother]
  simp only [update, find?, List.find?_map, hsame]
  cases hfound : service.chains.find? fun info => decide (info.id = id) with
  | none => simp
  | some info =>
      have hid : info.id = id := by simpa using List.find?_some hfound
      by_cases hother : other = id
      · simp [hother, hid]
      · simp [hother, hid, Ne.symm hother]

private theorem find?_note (service : Service) (id : String) (notice : Notice) :
    (service.note id notice).find? id =
      if service.isLost id then service.find? id
      else (service.find? id).map notice.apply := by
  unfold note report
  split_ifs
  · rfl
  · exact (find?_update service id id notice).trans (if_pos rfl)

private theorem find?_note_of_ne (service : Service) {id other : String}
    (hne : other ≠ id) (notice : Notice) :
    (service.note id notice).find? other = service.find? other := by
  unfold note report
  split_ifs
  · rfl
  · exact (find?_update service other id notice).trans (if_neg hne.symm)

private theorem noticesOf_cons (id : String) (entry : String × Notice)
    (notices : List (String × Notice)) : noticesOf id (entry :: notices) =
      if entry.1 = id then entry.2 :: noticesOf id notices
      else noticesOf id notices := by
  by_cases hown : entry.1 = id <;> simp [noticesOf, hown]

private theorem find?_noteAll (notices : List (String × Notice))
    (service : Service) (id : String) : (service.noteAll notices).find? id =
      if service.isLost id then service.find? id
      else (service.find? id).map (Notice.applyAll (noticesOf id notices)) := by
  induction notices generalizing service with
  | nil =>
      rw [noteAll, List.foldl_nil]
      cases service.find? id <;> simp [noticesOf, Notice.applyAll]
  | cons entry rest ih =>
      have hrest := ih (service.note entry.1 entry.2)
      rw [isLost_note] at hrest
      change ((service.note entry.1 entry.2).noteAll rest).find? id = _
      rw [hrest, noticesOf_cons]
      by_cases hown : entry.1 = id
      · subst hown
        rw [find?_note, if_pos rfl]
        cases service.isLost entry.1 with
        | true => rfl
        | false =>
            simp only [Bool.false_eq_true, if_false, Option.map_map]
            rfl
      · rw [find?_note_of_ne service (Ne.symm hown), if_neg hown]

structure SameRecord (id : String) (before after : Service) : Prop where
  find?_eq : after.find? id = before.find? id
  isLost_eq : after.isLost id = before.isLost id

theorem find?_add {service : Service} {info : ChainInfo}
    (hnew : service.find? info.id = none) :
    (service.add info).find? info.id = some info := by
  rw [find?] at hnew
  simp [add, find?, List.find?_append, hnew]

end Service

/-! ## Runs of accepted chains -/

/-- Whether the engine has broken off instead of answering. -/
def Event.breaksOff (event : Event σ) : Bool :=
  match event.deed with
  | .ran _ answer => Failure.breaksOff answer
  | _ => false

/-- Surroundings that put what they observe on record for one chain until the
engine breaks off, and do nothing else to its record; what they do to those of
other chains is left open. -/
structure Surroundings.Publishes (around : Surroundings Service)
    (id : String) : Prop where
  observes : ∀ run service, (around.observe run service).2.find? id =
    if service.isLost id then service.find? id
    else (service.find? id).map ((Notice.stands run).apply)
  keeps : ∀ event : Event Service, event.IsOf around → event.observed? = none →
    event.after.find? id = event.before.find? id
  loses : ∀ event : Event Service, event.IsOf around →
    event.after.isLost id = (event.before.isLost id || event.breaksOff)

def noted (events : List (Event σ)) : List σ :=
  events.filterMap fun event => event.observed?.map fun _ => event.after

@[simp] theorem noted_cons (event : Event σ) (events : List (Event σ)) :
    noted (event :: events) =
      (event.observed?.map fun _ => event.after).toList ++ noted events := by
  cases h : event.observed? <;> simp [noted, h]

section

variable {around : Surroundings Service} {id : String} {holds : Service → Prop}
  {jobs : List Job} {output? : Option Path} {state after : Service}
  {events : List (Event Service)}

/-- Along a trail on which the engine answers, the record of a chain is updated
by what is shown, and not otherwise. -/
theorem Trail.find?_eq (hpublishes : around.Publishes id)
    (h : Trail around holds jobs output? state events after)
    (hanswers : ∀ event ∈ events, event.breaksOff = false)
    (hkept : state.isLost id = false) {info : ChainInfo}
    (hinfo : state.find? id = some info) :
    (noted events).map (fun service => service.find? id) =
        (updates info.jobs (observations events)).map
          (fun runs => some { info with jobs := runs }) ∧
      (∀ event ∈ events, ∃ runs,
        event.after.find? id = some { info with jobs := runs }) ∧
      after.find? id =
        some { info with jobs := updateAll info.jobs (observations events) } ∧
      after.isLost id = false := by
  induction h generalizing info with
  | nil => exact ⟨rfl, by simp, hinfo, hkept⟩
  | @cons state between after deed rest hof hdue hrest ih =>
      obtain ⟨hanswer, hanswers⟩ := List.forall_mem_cons.1 hanswers
      have hstill : between.isLost id = false := by
        rw [hpublishes.loses _ hof, hkept, hanswer]
        rfl
      cases hobserved : Event.observed? ⟨state, deed, between⟩ with
      | none =>
          have hbetween : between.find? id = some info :=
            (hpublishes.keeps _ hof hobserved).trans hinfo
          obtain ⟨hnoted, hevents, hafter⟩ := ih hanswers hstill hbetween
          refine ⟨by
            simpa [hobserved] using hnoted,
              ?_, by simpa [hobserved] using hafter⟩
          exact List.forall_mem_cons.2 ⟨⟨info.jobs, hbetween⟩, hevents⟩
      | some run =>
          have hbetween : between.find? id = some (info.updateJob run) := by
            cases deed with
            | observed shown =>
                obtain rfl : shown = run := Option.some.inj hobserved
                have hobserves := hpublishes.observes shown state
                rw [show around.observe shown state = ((), between) from hof,
                  hinfo, hkept] at hobserves
                exact hobserves
            | _ => cases hobserved
          obtain ⟨hnoted, hevents, hafter⟩ := ih hanswers hstill hbetween
          refine ⟨?_, List.forall_mem_cons.2 ⟨⟨_, hbetween⟩, hevents⟩, ?_⟩
          · simp only [noted_cons, observations_cons, hobserved,
              Option.map_some, Option.toList_some, List.singleton_append,
              List.map_cons, hbetween, hnoted, updates]
            rfl
          · rw [observations_cons, hobserved]
            exact hafter

private theorem Trail.find?_of_lost (hpublishes : around.Publishes id)
    (h : Trail around holds jobs output? state events after)
    (hlost : state.isLost id = true) :
    (∀ event ∈ events, event.after.find? id = state.find? id) ∧
      after.find? id = state.find? id ∧ after.isLost id = true := by
  induction h with
  | nil => exact ⟨by simp, rfl, hlost⟩
  | @cons state between after deed rest hof hdue hrest ih =>
      have hbetween : between.find? id = state.find? id := by
        cases hobserved : Event.observed? ⟨state, deed, between⟩ with
        | none => exact hpublishes.keeps _ hof hobserved
        | some run =>
            cases deed with
            | observed shown =>
                have hobserves := hpublishes.observes shown state
                rwa [show around.observe shown state = ((), between) from hof,
                  if_pos hlost] at hobserves
            | _ => cases hobserved
      have hstill : between.isLost id = true := by
        rw [hpublishes.loses _ hof, hlost]
        rfl
      obtain ⟨hevents, hafter, hlast⟩ := ih hstill
      refine ⟨List.forall_mem_cons.2 ⟨hbetween, fun event hevent => ?_⟩,
        ?_, hlast⟩
      · exact (hevents event hevent).trans hbetween
      · exact hafter.trans hbetween

private theorem Trail.of_append {before later : List (Event Service)}
    (h : Trail around holds jobs output? state (before ++ later) after) :
    ∃ between, Trail around holds jobs output? state before between ∧
      Trail around holds jobs output? between later after := by
  induction before generalizing state with
  | nil => exact ⟨state, .nil, h⟩
  | cons event before ih =>
      cases h with
      | cons hof hdue hrest =>
          obtain ⟨between, hbefore, hlater⟩ := ih hrest
          exact ⟨between, .cons hof hdue hbefore, hlater⟩

end

namespace Service

private theorem publishes_surroundings (setting : ServiceSetting) (id : String)
    (runJob : Job → ExceptT Failure (StateM Service) JobReport)
    (hrun : ∀ job service, SameRecord id service ((runJob job).run service).2)
    (hnow : ∀ service, SameRecord id service (setting.now service).2) :
    Surroundings.Publishes
      { surroundings setting id with runJob := sendJob runJob id } id where
  observes run service := find?_note service id (.stands run)
  keeps := by
    rintro ⟨before, deed, after⟩ hof hnone
    cases deed with
    | ran job answer =>
        obtain rfl : _ = after := congrArg Prod.snd hof
        rw [run_sendJob]
        split_ifs
        · exact (hrun job before).find?_eq
        · exact (hrun job before).find?_eq
    | clocked time | published job result =>
        obtain rfl : _ = after := congrArg Prod.snd hof
        exact (hnow before).find?_eq
    | observed run => cases hnone
    | _ =>
        obtain rfl : _ = after := congrArg Prod.snd hof
        rfl
  loses := by
    rintro ⟨before, deed, after⟩ hof
    cases deed with
    | ran job answer =>
        obtain ⟨hanswer, rfl⟩ := Prod.mk.inj ((run_sendJob ..).symm.trans hof)
        have hsame := (hrun job before).isLost_eq
        change _ = (before.isLost id || Failure.breaksOff answer)
        rw [← hanswer]
        split_ifs with hbreaks
        · simp [hbreaks]
        · simpa [hbreaks] using hsame
    | clocked time | published job result =>
        obtain rfl : _ = after := congrArg Prod.snd hof
        exact (hnow before).isLost_eq.trans (Bool.or_false _).symm
    | observed run =>
        obtain rfl : _ = after := congrArg Prod.snd hof
        exact (isLost_note before id id (.stands run)).trans
          (Bool.or_false _).symm
    | _ =>
        obtain rfl : _ = after := congrArg Prod.snd hof
        exact (Bool.or_false _).symm

def runChainIn (setting : ServiceSetting) (around : Surroundings Service)
    (accepted : Accepted) : StateM Service Unit := do
  let started ← setting.now
  modify (note accepted.id (.started started))
  let request := accepted.request
  let result ← (Execution.run around accepted.jobs request.dataset.output
    request.overwrite request.trackPaths).run
  let finished ← setting.now
  modify (note accepted.id (.closing finished result))

private theorem find?_runChainIn {setting : ServiceSetting}
    {around : Surroundings Service} {accepted : Accepted} (hclock : ∀ service,
      SameRecord accepted.id service (setting.now service).2)
    (service : Service) :
    let opened := (setting.now service).2.note accepted.id
      (.started (setting.now service).1)
    let ran :=
      (Execution.run around accepted.jobs accepted.request.dataset.output
        accepted.request.overwrite accepted.request.trackPaths).run opened
    ((runChainIn setting around accepted).run service).2.find? accepted.id =
      if ran.2.isLost accepted.id then ran.2.find? accepted.id
      else (ran.2.find? accepted.id).map
      (Notice.closing (setting.now ran.2).1 ran.1).apply := by
  intro opened ran
  change ((setting.now ran.2).2.note accepted.id
    (.closing (setting.now ran.2).1 ran.1)).find? accepted.id = _
  rw [find?_note, (hclock ran.2).find?_eq, (hclock ran.2).isLost_eq]

theorem runChain_eq (setting : ServiceSetting) (accepted : Accepted) :
    runChain setting accepted =
      runChainIn setting (surroundings setting accepted.id) accepted := by
  unfold runChain runChainIn
  refine bind_congr fun started => bind_congr fun _ =>
    bind_congr fun result => ?_
  refine bind_congr fun finished => ?_
  cases result <;> rfl

/-- How the record of a chain follows its run, with the list of runs that its
driver keeps, from the record at its start to the one at its end, when the
engine answers each call. -/
structure Follows (id : String) (info : ChainInfo)
    (result : Except IoError (ChainOutcome × Ledger))
    (events : List (Event Service)) (final : ChainInfo) : Prop where
  running : info.status = .running ∧
    ∀ event ∈ events, ∃ runs,
      event.after.find? id = some { info with jobs := runs }
  shown : ∀ outcome ledger, result = .ok (outcome, ledger) →
    ledger.runs = outcome.runs ∧
    (noted events).map (fun service => (service.find? id).map ChainInfo.jobs) =
      ledger.shown.map some
  ended : ∀ outcome ledger, result = .ok (outcome, ledger) →
    final.jobs = outcome.runs ∧ final.failedIndex = outcome.failedIndex ∧
      final.error = outcome.error ∧ final.exitCode = some ↑outcome.exitCode ∧
      (final.status = .succeeded ↔ ∀ run ∈ final.jobs,
        run.status = .succeeded) ∧
      (final.status = .succeeded ∨ final.status = .failed ∧
        final.error.isSome = true)
  refused : ∀ error, (∃ event ∈ opening events, event.failure? = some error) ↔
    result = .error error
  stuck : ∀ error, result = .error error → noted events = [] ∧
    final.status = .failed ∧ final.error = some (ChainError.io error).message ∧
    final.jobs = info.jobs
  told : ∃ time, final = Notice.applyAll
    ((observations events).map .stands ++
      [.closing time (result.map Prod.fst)]) info

/-- How the record of a chain stands still from the call on in which the engine
breaks off. -/
structure Stalls (id : String) (info : ChainInfo)
    (result : Except IoError (ChainOutcome × Ledger))
    (before : List (Event Service)) (call : Event Service)
    (later : List (Event Service)) (final : ChainInfo) : Prop where
  broken : call.breaksOff = true ∧ ∀ event ∈ before, event.breaksOff = false
  running : info.status = .running ∧
    ∀ event ∈ before, ∃ runs,
      event.after.find? id = some { info with jobs := runs }
  shown : ∀ outcome ledger, result = .ok (outcome, ledger) →
    (noted before).map (fun service => (service.find? id).map ChainInfo.jobs) =
      (ledger.shown.take (noted before).length).map some
  stopped : call.before.find? id = some final ∧
    ∀ event ∈ call :: later, event.after.find? id = some final
  unfinished : final.status = .running
  told : final = Notice.applyAll ((observations before).map .stands) info

end Service

private theorem run_map_state {α β ε : Type} (change : α → β)
    (work : ExceptT ε (StateM σ) α) (state : σ) :
    (change <$> work).run state = ((work.run state).1.map change,
      (work.run state).2) := by
  rw [ExceptT.run_map]
  rfl

private theorem noted_eq_nil {events : List (Event σ)}
    (h : observations events = []) : noted events = [] := by
  have hnone := List.filterMap_eq_nil_iff.1 h
  exact List.filterMap_eq_nil_iff.2 fun event hevent => by
    simp [hnone event hevent]

private theorem IsRun.succeeded_iff {jobs : List Job} {outcome : ChainOutcome}
    {events : List (Event σ)} (h : IsRun jobs (.ok outcome) events) :
    (outcome.succeeded = true ↔ ∀ run ∈ outcome.runs, run.status = .succeeded) ∧
      (outcome.succeeded = true ∨ outcome.error.isSome = true) := by
  rcases h.ends with hall | ⟨failed, hfailed⟩
  · have hsucceeded : outcome.succeeded = true := by
      simp [ChainOutcome.succeeded, hall.failedIndex_eq]
    exact ⟨iff_of_true hsucceeded hall.succeeded, .inl hsucceeded⟩
  · obtain ⟨run, text, hrun, hstatus, -, herror⟩ := hfailed.stopped
    refine ⟨?_, .inr (by simp [herror])⟩
    refine iff_of_false
      (by simp [ChainOutcome.succeeded, hfailed.failedIndex_eq]) fun hall => ?_
    have hsucceeded := hall run (List.mem_of_getElem? hrun)
    simp [hstatus] at hsucceeded

section

variable {around : Surroundings Service} {id : String} {holds : Service → Prop}
  {jobs : List Job} {output? : Option Path} {info : ChainInfo}
  {state after : Service} {result : Except IoError ChainOutcome}
  {events : List (Event Service)}

private theorem IsRun.follows (hpublishes : around.Publishes id)
    (hordinals : jobs.map Job.ordinal = List.range jobs.length)
    (hstatus : info.status = .running)
    (hjobs : info.jobs = jobs.map JobRun.pending)
    (hinfo : state.find? id = some info) (hkept : state.isLost id = false)
    (hrun : IsRun jobs result events)
    (htrail : Trail around holds jobs output? state events after)
    (hanswers : ∀ event ∈ events, event.breaksOff = false) (time : Timestamp) :
    ∃ last, after.find? id = some last ∧ after.isLost id = false ∧
      Service.Follows id info
        (result.map fun outcome =>
          (outcome, ⟨outcome.runs, standings [] jobs outcome.runs⟩))
        events ((Notice.closing time result).apply last) := by
  obtain ⟨hnoted, hevents, hafter, hlast⟩ :=
    htrail.find?_eq hpublishes hanswers hkept hinfo
  refine ⟨_, hafter, hlast, ?_⟩
  constructor
  case running => exact ⟨hstatus, hevents⟩
  case shown =>
    cases result with
    | error error => rintro _ _ ⟨⟩
    | ok outcome =>
        rintro _ _ ⟨⟩
        have hshown := congrArg (List.map (Option.map ChainInfo.jobs)) hnoted
        rw [hjobs, (hrun.updates_eq hordinals).1] at hshown
        rw [List.map_map, List.map_map] at hshown
        exact ⟨rfl, hshown⟩
  case ended =>
    cases result with
    | error error => rintro _ _ ⟨⟩
    | ok outcome =>
        rintro _ _ ⟨⟩
        obtain ⟨hsucceeded, herror⟩ := hrun.succeeded_iff
        refine ⟨rfl, rfl, rfl, rfl, ?_, ?_⟩
        · change (if outcome.succeeded = true then
            ChainStatus.succeeded else .failed) = _ ↔
            ∀ run ∈ outcome.runs, run.status = .succeeded
          rw [← hsucceeded]
          by_cases h : outcome.succeeded = true <;> simp [h]
        · change (if outcome.succeeded = true then
            ChainStatus.succeeded else .failed) = _ ∨
            (if outcome.succeeded = true then
              ChainStatus.succeeded else .failed) = _ ∧
              outcome.error.isSome = true
          by_cases h : outcome.succeeded = true
          · simp [h]
          · simpa [h] using herror
  case refused =>
    intro error
    rw [hrun.failure_iff]
    cases result <;> simp [Except.map]
  case stuck =>
    cases result with
    | ok outcome => rintro _ ⟨⟩
    | error error =>
        rintro _ ⟨⟩
        have hquiet := hrun.quiet.2
        exact ⟨noted_eq_nil hquiet, rfl, rfl, by rw [hquiet]; rfl⟩
  case told =>
    refine ⟨time, ?_⟩
    rw [← Notice.applyAll_stands, Notice.applyAll, Notice.applyAll,
      List.foldl_append]
    cases result <;> rfl

private theorem IsRun.stalls (hpublishes : around.Publishes id)
    (hordinals : jobs.map Job.ordinal = List.range jobs.length)
    (hstatus : info.status = .running)
    (hjobs : info.jobs = jobs.map JobRun.pending)
    (hinfo : state.find? id = some info) (hkept : state.isLost id = false)
    (hrun : IsRun jobs result events)
    (htrail : Trail around holds jobs output? state events after)
    (hbreaks : ∃ event ∈ events, event.breaksOff = true) :
    ∃ before call later last, events = before ++ call :: later ∧
      after.find? id = some last ∧ after.isLost id = true ∧
      Service.Stalls id info
        (result.map fun outcome =>
          (outcome, ⟨outcome.runs, standings [] jobs outcome.runs⟩))
        before call later last := by
  obtain ⟨call, hfirst⟩ :=
    Option.isSome_iff_exists.1 (List.find?_isSome.2 hbreaks)
  obtain ⟨hcall, before, later, rfl, hanswers⟩ :=
    List.find?_eq_some_iff_append.1 hfirst
  have hanswers : ∀ event ∈ before, event.breaksOff = false := by
    simpa using hanswers
  obtain ⟨between, hbefore, hlater⟩ := htrail.of_append
  obtain ⟨hnoted, hevents, hbetween, hstill⟩ :=
    hbefore.find?_eq hpublishes hanswers hkept hinfo
  cases hlater with
  | @cons _ broken _ deed _ hof hdue hrest =>
      have hlost : broken.isLost id = true := by
        rw [hpublishes.loses _ hof, hcall, Bool.or_true]
      have hshown : Event.observed? ⟨between, deed, broken⟩ = none := by
        cases deed with
        | ran job answer => rfl
        | _ => cases hcall
      have hbroken := (hpublishes.keeps _ hof hshown).trans hbetween
      obtain ⟨hstands, hafter, hend⟩ := hrest.find?_of_lost hpublishes hlost
      refine ⟨before, _, later, _, rfl, hafter.trans hbroken, hend, ?_⟩
      constructor
      case broken => exact ⟨hcall, hanswers⟩
      case running => exact ⟨hstatus, hevents⟩
      case shown =>
        cases result with
        | error error => rintro _ _ ⟨⟩
        | ok outcome =>
            rintro _ _ ⟨⟩
            have hshown :=
              congrArg (List.map (Option.map ChainInfo.jobs)) hnoted
            rw [List.map_map, List.map_map] at hshown
            have hall := (hrun.updates_eq hordinals).1
            rw [← hjobs, observations_append, updates_append] at hall
            have hlength : (noted before).length =
                (updates info.jobs (observations before)).length :=
              by simpa using congrArg List.length hnoted
            rw [← hall, hlength, List.take_left]
            exact hshown
      case stopped =>
        refine ⟨hbetween,
          List.forall_mem_cons.2 ⟨hbroken, fun event hevent => ?_⟩⟩
        exact (hstands event hevent).trans hbroken
      case unfinished => exact hstatus
      case told => rw [Notice.applyAll_stands]

private theorem exists_kept (hpublishes : around.Publishes id)
    (hordinals : jobs.map Job.ordinal = List.range jobs.length)
    (hstatus : info.status = .running)
    (hjobs : info.jobs = jobs.map JobRun.pending)
    (hinfo : state.find? id = some info) (hkept : state.isLost id = false)
    (output : Path) (overwrite trackPaths : Bool)
    (time : Service → Timestamp) :
    let (plain, last) :=
      (Execution.run around jobs output overwrite trackPaths).run state
    ∃ result events final,
      (runKept around.recorded jobs output overwrite trackPaths).run
        (state, []) = (result, last, events) ∧
      plain = result.map Prod.fst ∧
      (if last.isLost id then last.find? id
        else (last.find? id).map (Notice.closing (time last) plain).apply) =
        some final ∧
      ((∀ event ∈ events, event.breaksOff = false) →
        Service.Follows id info result events final) ∧
      ((∃ event ∈ events, event.breaksOff = true) →
        ∃ before call later, events = before ++ call :: later ∧
          Service.Stalls id info result before call later final) := by
  obtain ⟨events, hrecorded, hrun, htrail⟩ :=
    ((recorded_run around jobs output overwrite trackPaths state).and
      (@recorded_run_trail _ around (fun _ => True) _ _
        (fun _ _ _ holds => holds) _ _ _ trivial)) []
  cases hplain :
    (Execution.run around jobs output overwrite trackPaths).run state with
  | mk plain last =>
  rw [hplain] at hrecorded hrun htrail
  let result := plain.map fun outcome : ChainOutcome =>
    (outcome, (⟨outcome.runs, standings [] jobs outcome.runs⟩ : Ledger))
  have hresult :
      (runKept around.recorded jobs output overwrite trackPaths).run
        (state, []) = (result, last, events) := by
    rw [runKept_eq, run_map_state, hrecorded, List.nil_append]
  have hfirst : plain = result.map Prod.fst := by cases plain <;> rfl
  by_cases hbreaks : ∃ event ∈ events, event.breaksOff = true
  · obtain ⟨before, call, later, final, hsplit, hlast, hlost, hstalls⟩ :=
      hrun.stalls hpublishes hordinals hstatus hjobs hinfo hkept htrail hbreaks
    refine ⟨result, events, final, hresult, hfirst, by rw [if_pos hlost, hlast],
      fun hanswers => ?_, fun _ => ⟨before, call, later, hsplit, hstalls⟩⟩
    obtain ⟨event, hevent, hbroken⟩ := hbreaks
    exact absurd hbroken (by simp [hanswers event hevent])
  · have hanswers : ∀ event ∈ events, event.breaksOff = false := by
      simpa using hbreaks
    obtain ⟨final, hlast, hlost, hfollows⟩ :=
      hrun.follows hpublishes hordinals hstatus hjobs hinfo hkept htrail
        hanswers (time last)
    refine ⟨result, events, _, hresult, hfirst, ?_, fun _ => hfollows,
      fun hsome => absurd hsome hbreaks⟩
    rw [hlost, hlast]
    rfl

end

namespace Service

def sampleAdded : Service :=
  sampleService.add (sampleAccepted.info { seconds := 0 })

def sampleKept (around : Surroundings Service) :
    Except IoError (ChainOutcome × Ledger) × Service × List (Event Service) :=
  (runKept around.recorded sampleAccepted.jobs
    sampleAccepted.request.dataset.output sampleAccepted.request.overwrite
    sampleAccepted.request.trackPaths).run
    (sampleAdded.note "c" (.started { seconds := 0 }), [])

def sampleLost : Surroundings Service :=
  { surroundings sampleSetting "c" with
    runJob := sendJob (fun _ => throw Engine.outOfMemory) "c" }

private theorem publishes_sample :
    (surroundings sampleSetting "c").Publishes "c" :=
  publishes_surroundings sampleSetting "c" _ (fun _ _ => ⟨rfl, rfl⟩) fun _ =>
    ⟨rfl, rfl⟩

private theorem publishes_sampleLost : sampleLost.Publishes "c" :=
  publishes_surroundings sampleSetting "c" _ (fun _ _ => ⟨rfl, rfl⟩) fun _ =>
    ⟨rfl, rfl⟩

end Service

end JobChain
