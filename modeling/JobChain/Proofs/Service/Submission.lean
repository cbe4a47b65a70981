import JobChain.Proofs.Compilation
import JobChain.Proofs.Json.Documents
import JobChain.Proofs.Service.Notices

/-!
# Requests for chains

A request for a chain is refused as a whole or taken as a whole. Its body, its
paths, its stages and its package are looked at in this order, and as long as
one of them may be wrong nothing is changed. What is wrong first is what the
answer tells of; among stages it is the first one that is badly formed, whatever
stands before it and behind it.
-/

namespace JobChain

/-! ## Stages that are badly formed -/

def IsFirstFault (stages : List Stage) (error : ShapeError) : Prop :=
  ∃ before stage rest, stages = before ++ stage :: rest ∧
    (∀ other ∈ before, other.check = .ok ()) ∧ stage.check = .error error

private theorem checked_or_faulty (stages : List Stage) :
    (∀ stage ∈ stages, stage.check = .ok ()) ∨
    ∃ error, IsFirstFault stages error := by
  induction stages with
  | nil => exact .inl (by simp)
  | cons stage rest ih =>
      cases hstage : stage.check with
      | error error => exact .inr ⟨error, [], stage, rest, rfl, by simp, hstage⟩
      | ok _ =>
          rcases ih with hrest | ⟨error, before, faulty, behind, rfl, hbefore,
            hfaulty⟩
          · exact .inl (List.forall_mem_cons.2 ⟨hstage, hrest⟩)
          · exact .inr ⟨error, stage :: before, faulty, behind, rfl,
              List.forall_mem_cons.2 ⟨hstage, hbefore⟩, hfaulty⟩

private theorem IsFirstFault.exists_unchecked {stages : List Stage}
    {error : ShapeError} (h : IsFirstFault stages error) : ∃ stage ∈ stages,
    stage.check ≠ .ok () := by
  obtain ⟨before, stage, rest, rfl, -, hstage⟩ := h
  exact ⟨stage, by simp, by simp [hstage]⟩

private theorem not_exists_unchecked {stages : List Stage}
    (h : ∀ stage ∈ stages, stage.check = .ok ()) :
    ¬∃ stage ∈ stages, stage.check ≠ .ok () := by
  rintro ⟨stage, hstage, hcheck⟩
  exact hcheck (h stage hstage)

private theorem IsFirstFault.not_checked {stages : List Stage}
    {error : ShapeError} (h : IsFirstFault stages error) : ¬∀ stage ∈ stages,
    stage.check = .ok () :=
  fun hchecked => not_exists_unchecked hchecked h.exists_unchecked

namespace Plan

private theorem appendAll_of_fault {stages : List Stage} {error : ShapeError}
    (h : IsFirstFault stages error) (plan : Plan) :
    plan.appendAll stages = .error error := by
  obtain ⟨before, stage, rest, rfl, hbefore, hstage⟩ := h
  induction before generalizing plan with
  | nil => simp only [List.nil_append, appendAll, append_eq, hstage]
  | cons first others ih =>
      obtain ⟨hfirst, hothers⟩ := List.forall_mem_cons.1 hbefore
      simp only [List.cons_append, appendAll, append_eq, hfirst]
      exact ih (plan.push first) hothers

private theorem fault_unique {stages : List Stage} {error error' : ShapeError}
    (h : IsFirstFault stages error)
    (h' : IsFirstFault stages error') : error = error' := by
  have heq := (appendAll_of_fault h {}).symm.trans (appendAll_of_fault h' {})
  exact Except.error.inj heq

private theorem appendAll_of_checked {stages : List Stage}
    (h : ∀ stage ∈ stages, stage.check = .ok ()) (plan : Plan) :
    ∃ grown, plan.appendAll stages = .ok grown := by
  rw [appendAll_eq_enterAll]
  exact exists_enterAll (List.forall_mem_map.2 h) (List.forall_mem_map.2
    fun _ _ => rfl) plan

private theorem blocks_eq_nil_iff {stages : List Stage} {grown : Plan}
    (h : appendAll {} stages = .ok grown) : grown.blocks = [] ↔
    stages = [] := by
  constructor
  · intro hblocks
    rw [appendAll_eq_enterAll] at h
    have hflatten := (isTightFor_nil.enterAll h).divides.flatten_eq
    simpa [hblocks] using hflatten
  · rintro rfl
    cases h
    rfl

end Plan

/-- A sound chain is compiled if it has no blocks or its package is found, and
otherwise refused for its package. -/
theorem Chain.IsSound.compile_cases {chain : Chain} (h : chain.IsSound)
    (store : Store) (home? : Option String) (dataset : Dataset) :
    (¬chain.plan.blocks = [] ∧ ∃ cause,
        (Package.locate store home? chain.options).2 = .error cause ∧
        (chain.compile store home? dataset).2 = .error (.package cause)) ∨
      (chain.plan.blocks = [] ∨
          ∃ package, (Package.locate store home? chain.options).2 =
            .ok package) ∧
        ∃ jobs, (chain.compile store home? dataset).2 = .ok jobs := by
  by_cases hblocks : chain.plan.blocks = []
  · exact .inr ⟨.inl hblocks, [], by simp [Chain.compile, hblocks]⟩
  have hcompile := h.compile_eq hblocks dataset store home?
  cases hpackage : (Package.locate store home? chain.options).2 with
  | error cause =>
      rw [hpackage] at hcompile
      exact .inl ⟨hblocks, cause, rfl, hcompile⟩
  | ok package =>
      rw [hpackage] at hcompile
      exact .inr ⟨.inr ⟨package, rfl⟩, _, hcompile⟩

namespace ChainRequest

private theorem chain_of_fault {request : ChainRequest} {error : ShapeError}
    (h : IsFirstFault request.stages error) :
    request.chain = .error (.compilation error) := by
  rw [chain_eq, Plan.appendAll_of_fault h]

private theorem chain_of_checked {request : ChainRequest}
    (h : ∀ stage ∈ request.stages, stage.check = .ok ()) :
    ∃ chain, request.chain = .ok chain ∧
      chain.IsSound ∧ chain.options = request.options ∧
      (chain.plan.blocks = [] ↔ request.stages = []) := by
  obtain ⟨plan, hplan⟩ := Plan.appendAll_of_checked h {}
  have hchain := chain_eq request
  rw [hplan] at hchain
  exact ⟨_, hchain, Chain.isSound_of_enterAll (chain_eq_ok hchain), rfl,
    Plan.blocks_eq_nil_iff hplan⟩

end ChainRequest

namespace Service

/-! ## Verdicts -/

def astray? (request : ChainRequest) : Option Path :=
  [request.dataset.input, request.dataset.output].find? fun path =>
    !path.isConfined

inductive Verdict (setting : ServiceSetting) (store : Store) (id : String)
    (request : ChainRequest) : Except Refusal Accepted → Prop where
  | astray {path : Path} (hpath : astray? request = some path) :
      Verdict setting store id request (.error (.notConfined path))
  | faulty {error : ShapeError} (hconfined : astray? request = none)
      (hfault : IsFirstFault request.stages error) :
      Verdict setting store id request (.error (.badChain (.compilation error)))
  | bare {cause : PackageError} (hconfined : astray? request = none)
      (hchecked : ∀ stage ∈ request.stages, stage.check = .ok ())
      (hstages : request.stages ≠ [])
      (hpackage : (Package.locate store setting.home request.options).2 =
        .error cause) :
      Verdict setting store id request (.error (.badChain (.package cause)))
  | taken {accepted : Accepted} (hconfined : astray? request = none)
      (hchecked : ∀ stage ∈ request.stages, stage.check = .ok ())
      (hpackage : request.stages = [] ∨
        ∃ package, (Package.locate store setting.home request.options).2 =
          .ok package)
      (hadmits : Admits setting store id request accepted) :
      Verdict setting store id request (.ok accepted)

private theorem verdict_accept (setting : ServiceSetting) (store : Store)
    (id : String) (request : ChainRequest) :
    Verdict setting store id request (accept setting store id request) := by
  cases hconfined : astray? request with
  | some path =>
      have haccept : accept setting store id request =
          .error (.notConfined path) := by
        rw [accept, ← astray?, hconfined]
      rw [haccept]
      exact .astray hconfined
  | none =>
      rcases checked_or_faulty request.stages with hchecked | ⟨error, hfault⟩
      · obtain ⟨chain, hchain, hsound, hoptions, hblocks⟩ :=
          @ChainRequest.chain_of_checked (request.rebase setting.data) hchecked
        have hcases :=
          hsound.compile_cases store setting.home
            (request.rebase setting.data).dataset
        rw [hoptions, hblocks] at hcases
        rcases hcases with ⟨hstages, cause, hpackage, hcompile⟩ | ⟨hpackage,
          jobs, hcompile⟩
        · have haccept : accept setting store id request =
              .error (.badChain (.package cause)) := by
            rw [accept, ← astray?, hconfined]
            simp only [hchain, hcompile]
          rw [haccept]
          exact .bare hconfined hchecked hstages hpackage
        · have haccept : accept setting store id request = .ok
              { id, request := request.rebase setting.data,
                trackPaths := chain.trackPaths, jobs } := by
            rw [accept, ← astray?, hconfined]
            simp only [hchain, hcompile]
          rw [haccept]
          exact .taken hconfined hchecked hpackage (admits_of_accept haccept)
      · have haccept : accept setting store id request =
            .error (.badChain (.compilation error)) := by
          rw [accept, ← astray?, hconfined]
          simp only [@ChainRequest.chain_of_fault (request.rebase setting.data)
            error hfault]
        rw [haccept]
        exact .faulty hconfined hfault

/-! ## The other chains -/

/-- A setting whose ids and times are had without the service. -/
structure IsDetached (setting : ServiceSetting) : Prop where
  newJobId : ∀ service, (setting.newJobId service).2 = service
  now : ∀ service, (setting.now service).2 = service

def OnlyChanges (id : String) (before after : List ChainInfo) : Prop :=
  List.Forall₂ (fun info info' => info'.id = info.id ∧
    (info.id ≠ id → info' = info)) before after

theorem OnlyChanges.refl (id : String)
    (chains : List ChainInfo) : OnlyChanges id chains chains :=
  List.forall₂_same.2 fun _ _ => ⟨rfl, fun _ => rfl⟩

theorem OnlyChanges.note {id : String} {chains : List ChainInfo}
    {service : Service} (h : OnlyChanges id chains service.chains)
    (notice : Notice) :
    OnlyChanges id chains (service.note id notice).chains := by
  unfold Service.note report
  split_ifs
  · exact h
  · refine List.forall₂_map_right_iff.2 (h.imp ?_)
    rintro info info' ⟨hid, hsame⟩
    split_ifs with hown
    · exact ⟨(notice.id_apply info').trans hid,
        fun hne => absurd (hid ▸ hown) hne⟩
    · exact ⟨hid, hsame⟩

private theorem OnlyChanges.exists_last {id : String}
    {chains after : List ChainInfo} {info : ChainInfo}
    (h : OnlyChanges id (chains ++ [info]) after)
    (hothers : ∀ other ∈ chains, other.id ≠ id) : ∃ final, final.id = info.id ∧
    after = chains ++ [final] := by
  induction chains generalizing after with
  | nil =>
      cases h with
      | cons hhead htail =>
          cases htail
          exact ⟨_, hhead.1, rfl⟩
  | cons other rest ih =>
      obtain ⟨hother, hrest⟩ := List.forall_mem_cons.1 hothers
      cases h with
      | cons hhead htail =>
          obtain ⟨final, hfinal, rfl⟩ := ih htail hrest
          exact ⟨final, hfinal, by rw [hhead.2 hother, List.cons_append]⟩

theorem IsDetached.keeps {setting : ServiceSetting} (h : IsDetached setting)
    (id : String) (chains : List ChainInfo) (jobs : List Job)
    (output? : Option Path) :
    (surroundings setting id).Keeps
      (fun service => OnlyChanges id chains service.chains) jobs output? := by
  rintro ⟨before, deed, after⟩ hof - hbefore
  cases deed with
  | observed run =>
      obtain rfl : _ = after := congrArg Prod.snd hof
      exact hbefore.note (.stands run)
  | ran job answer =>
      obtain rfl : _ = after := congrArg Prod.snd hof
      have hsent : ((surroundings setting id).runJob job).run before = _ :=
        run_sendJob ..
      have hchains :
          (((surroundings setting id).runJob job).run before).2.chains =
          (setting.newJobId before).2.chains := by
        rw [hsent]
        split_ifs <;> rfl
      rw [h.newJobId] at hchains
      exact (show OnlyChanges id chains _ from hchains ▸ hbefore)
  | clocked time | published job result =>
      obtain rfl : _ = after := congrArg Prod.snd hof
      exact (show OnlyChanges id chains (setting.now before).2.chains from
        (h.now before).symm ▸ hbefore)
  | _ =>
      obtain rfl : _ = after := congrArg Prod.snd hof
      exact hbefore

private theorem onlyChanges_runChain {setting : ServiceSetting}
    (h : IsDetached setting) (accepted : Accepted) (service : Service) :
    OnlyChanges accepted.id service.chains
      ((runChain setting accepted).run service).2.chains := by
  have hstart : OnlyChanges accepted.id service.chains
      ((setting.now service).2.note accepted.id
        (.started (setting.now service).1)).chains := by
    rw [h.now]
    exact (OnlyChanges.refl _ _).note _
  have hkeeps := h.keeps accepted.id service.chains accepted.jobs
    (some accepted.request.dataset.output)
  obtain ⟨events, -, htrail⟩ :=
    recorded_run_trail accepted.request.dataset.output hkeeps
      accepted.request.overwrite accepted.request.trackPaths hstart []
  have hran := (htrail.invariant hkeeps hstart).2
  rw [runChain_eq]
  refine OnlyChanges.note ?_ _
  rw [h.now]
  exact hran

/-! ## Answers -/

def Refusal.answer (refusal : Refusal) : HttpResponse :=
  { status := refusal.status, body := .text refusal.message }

private theorem Refusal.isSuccess_answer (refusal : Refusal) :
    refusal.answer.isSuccess = false := by
  rcases refusal with path | (_ | _ | _ | _ | _ | _ | _ | _ | _) <;> rfl

private theorem isSuccess_of_decodeBody {α : Type} {decoder : Decoder α}
    {request : HttpRequest} {response : HttpResponse}
    (h : request.decodeBody decoder = .error response) :
    response.isSuccess = false := by
  unfold HttpRequest.decodeBody at h
  split_ifs at h
  · cases h
    rfl
  · cases h
    rfl
  · split at h <;> cases h <;> rfl

section

variable {setting : ServiceSetting} {service : Service} {id : String}
  {request : HttpRequest} (hmethod : request.method = "POST")
  (hroute : Route.ofSegments? request.segments = some .chains)

include hmethod hroute

private theorem run_handle : (handle setting id request).run service =
    match submit setting service id request with
    | .error response => (response, service)
    | .ok accepted =>
        let (info, entered) := (enter setting accepted).run service
        ({ status := 200, body := .json info.toJson },
          ((runChain setting accepted).run entered).2) := by
  have hget : ¬request.method = "GET" := by simp [hmethod]
  have hhead : ¬request.method = "HEAD" := by simp [hmethod]
  simp only [handle, hroute, if_neg hget, if_neg hhead, and_true,
    if_pos hmethod]
  change (match submit setting service id request with
    | .error response => pure response
    | .ok accepted => _ : StateM Service HttpResponse).run service = _
  cases submit setting service id request <;> rfl

end

/-- A chain that is taken is put on record behind the others, as it was
accepted, before anything else is done. When its run is over no entry but its
own has changed. -/
structure Enters (service : Service) (id : String) (accepted : Accepted)
    (info : ChainInfo) (entered after : Service) : Prop where
  tells : info.id = id ∧ info.status = .accepted ∧
      info.jobs = accepted.jobs.map JobRun.pending
  store_eq : entered.store = service.store
  chains_eq : entered.chains = service.chains ++ [info]
  found : service.find? id = none → entered.find? id = some info
  kept : OnlyChanges id entered.chains after.chains
  left : service.find? id = none →
    ∃ final, final.id = id ∧ after.chains = service.chains ++ [final]

private theorem Admits.enters {setting : ServiceSetting}
    (h : IsDetached setting) {service : Service}
    {id : String} {request : ChainRequest} {accepted : Accepted}
    (hadmits : Admits setting service.store id request accepted) :
    let (info, entered) := (enter setting accepted).run service
    Enters service id accepted info entered
    ((runChain setting accepted).run entered).2 := by
  obtain rfl := hadmits.id_eq
  have henter : (enter setting accepted).run service =
      (accepted.info (setting.now service).1,
        service.add (accepted.info (setting.now service).1)) := by
    change (_, (setting.now service).2.add _) = _
    rw [h.now]
  rw [henter]
  have hkept := onlyChanges_runChain h accepted
    (service.add (accepted.info (setting.now service).1))
  exact
    { tells := ⟨rfl, rfl, rfl⟩
      store_eq := rfl
      chains_eq := rfl
      found := fun hnew => find?_add hnew
      kept := hkept
      left := fun hnew => hkept.exists_last (by simpa [find?] using hnew) }

/-- What the answer to a request tells, by what was wrong first. -/
structure Explains (setting : ServiceSetting) (store : Store)
    (request : ChainRequest) (answer : HttpResponse) : Prop where
  astray : ∀ path, astray? request = some path →
      answer = (Refusal.notConfined path).answer
  faulty_iff : astray? request = none →
    ((∃ error, answer = (Refusal.badChain (.compilation error)).answer) ↔
      ∃ stage ∈ request.stages, stage.check ≠ .ok ())
  first : astray? request = none → ∀ error, IsFirstFault request.stages error →
    answer = (Refusal.badChain (.compilation error)).answer
  bare : astray? request = none →
    (∀ stage ∈ request.stages, stage.check = .ok ()) →
    request.stages ≠ [] → ∀ cause,
      (Package.locate store setting.home request.options).2 = .error cause →
        answer = (Refusal.badChain (.package cause)).answer
  taken : astray? request = none →
    (∀ stage ∈ request.stages, stage.check = .ok ()) →
    (request.stages = [] ∨
      ∃ package, (Package.locate store setting.home request.options).2 =
        .ok package) →
      answer.isSuccess = true

namespace Verdict

variable {setting : ServiceSetting} {store : Store} {id : String}
  {request : ChainRequest}

private theorem explains_of_refused {refusal : Refusal}
    (h : Verdict setting store id request (.error refusal)) :
    Explains setting store request refusal.answer := by
  cases h with
  | astray hpath =>
      constructor <;> simp only [hpath] <;> intro h
      · intro heq
        cases heq
        rfl
      all_goals cases h
  | @faulty error hconfined hfault =>
      constructor <;> simp only [hconfined]
      · rintro _ ⟨⟩
      · exact fun _ => iff_of_true ⟨error, rfl⟩ hfault.exists_unchecked
      · intro _ other hother
        rw [Plan.fault_unique hother hfault]
      · exact fun _ hchecked => absurd hchecked hfault.not_checked
      · exact fun _ hchecked => absurd hchecked hfault.not_checked
  | @bare cause hconfined hchecked hstages hpackage =>
      constructor <;> simp only [hconfined]
      · rintro _ ⟨⟩
      · refine fun _ => iff_of_false ?_ (not_exists_unchecked hchecked)
        rintro ⟨error, hanswer⟩
        cases congrArg HttpResponse.status hanswer
      · exact fun _ error hfault => absurd hchecked hfault.not_checked
      · intro _ _ _ other hother
        rw [hpackage] at hother
        cases hother
        rfl
      · rintro _ _ (hnil | ⟨package, hfound⟩)
        · exact absurd hnil hstages
        · rw [hpackage] at hfound
          cases hfound

private theorem explains_of_taken {accepted : Accepted}
    (h : Verdict setting store id request (.ok accepted)) (value : Json) :
    Explains setting store request { status := 200, body := .json value } := by
  cases h with
  | taken hconfined hchecked hpackage hadmits =>
      constructor <;> simp only [hconfined]
      · rintro _ ⟨⟩
      · refine fun _ => iff_of_false ?_ (not_exists_unchecked hchecked)
        rintro ⟨error, hanswer⟩
        cases congrArg HttpResponse.status hanswer
      · exact fun _ error hfault => absurd hchecked hfault.not_checked
      · intro _ _ hstages cause hcause
        rcases hpackage with hnil | ⟨package, hfound⟩
        · exact absurd hnil hstages
        · rw [hcause] at hfound
          cases hfound
      · exact fun _ _ _ => rfl

end Verdict

section

variable {setting : ServiceSetting} {service : Service} {id : String}
  {request : HttpRequest} (hmethod : request.method = "POST")
  (hroute : Route.ofSegments? request.segments = some .chains)

include hmethod hroute

private theorem handle_of_refused {response : HttpResponse}
    (h : submit setting service id request = .error response) :
    (handle setting id request).run service = (response, service) := by
  rw [run_handle hmethod hroute, h]

private theorem handle_of_taken (hdetached : IsDetached setting)
    {wanted : ChainRequest} {accepted : Accepted}
    (hadmits : Admits setting service.store id wanted accepted)
    (h : submit setting service id request = .ok accepted) :
    ∃ info entered after, (enter setting accepted).run service =
        (info, entered) ∧
      (handle setting id request).run service =
        ({ status := 200, body := .json info.toJson }, after) ∧
      after = ((runChain setting accepted).run entered).2 ∧
      Enters service id accepted info entered after := by
  have henters := hadmits.enters hdetached
  cases hentry : (enter setting accepted).run service with
  | mk info entered =>
  simp only [hentry] at henters
  refine ⟨info, entered, _, rfl, ?_, rfl, henters⟩
  rw [run_handle hmethod hroute, h]
  simp only [hentry]

end

/-- A request for a chain changes nothing unless the answer is a success, and
then it enters one chain. It is refused for a stage exactly if one is badly
formed and its body and its paths are in order, and for the first such stage. -/
theorem submission_all_or_nothing {setting : ServiceSetting}
    (hdetached : IsDetached setting)
    (service : Service) (id : String) {request : HttpRequest}
    (hmethod : request.method = "POST")
    (hroute : Route.ofSegments? request.segments = some .chains) :
    let answer := ((handle setting id request).run service).1
    let after := ((handle setting id request).run service).2
    (answer.isSuccess = false → after = service) ∧
      (answer.isSuccess = true → ∃ wanted accepted info entered,
        request.decodeBody ChainRequest.decoder = .ok wanted ∧
        Admits setting service.store id wanted accepted ∧
        (enter setting accepted).run service = (info, entered) ∧
        answer = { status := 200, body := .json info.toJson } ∧
        after = ((runChain setting accepted).run entered).2 ∧
        Enters service id accepted info entered after) ∧
      (∀ response, request.decodeBody ChainRequest.decoder = .error response →
        answer = response ∧ response.isSuccess = false) ∧
      ∀ wanted, request.decodeBody ChainRequest.decoder = .ok wanted →
        Explains setting service.store wanted answer := by
  intro answer after
  cases hbody : request.decodeBody ChainRequest.decoder with
  | error response =>
      have hfailed := isSuccess_of_decodeBody hbody
      have hrun : (answer, after) = (response, service) :=
        handle_of_refused hmethod hroute (by rw [submit, hbody])
      obtain ⟨hanswer, hafter⟩ := Prod.mk.inj hrun
      refine ⟨fun _ => hafter, fun hsuccess => ?_, ?_, fun _ => nofun⟩
      · rw [hanswer, hfailed] at hsuccess
        cases hsuccess
      · rintro _ ⟨⟩
        exact ⟨hanswer, hfailed⟩
  | ok wanted =>
      have hverdict := verdict_accept setting service.store id wanted
      cases haccept : accept setting service.store id wanted with
      | error refusal =>
          have hrun : (answer, after) = (refusal.answer, service) :=
            handle_of_refused hmethod hroute (by
              simp only [submit, hbody, haccept]
              rfl)
          rw [haccept] at hverdict
          obtain ⟨hanswer, hafter⟩ := Prod.mk.inj hrun
          refine ⟨fun _ => hafter, fun hsuccess => ?_, fun _ => nofun, ?_⟩
          · rw [hanswer, refusal.isSuccess_answer] at hsuccess
            cases hsuccess
          · rintro _ ⟨⟩
            exact hanswer ▸ hverdict.explains_of_refused
      | ok accepted =>
          have hadmits := admits_of_accept haccept
          rw [haccept] at hverdict
          obtain ⟨info, entered, left, hentry, hrun, hleft, henters⟩ :=
            handle_of_taken hmethod hroute hdetached hadmits (by
              simp only [submit, hbody, haccept]
              rfl)
          obtain ⟨hanswer, rfl⟩ : answer = _ ∧ after = left :=
            Prod.mk.inj hrun
          refine ⟨fun hfailed => ?_, fun _ => ?_, fun _ => nofun, ?_⟩
          · rw [hanswer] at hfailed
            cases hfailed
          · exact ⟨wanted, accepted, info, entered, rfl, hadmits, hentry,
              hanswer, hleft, henters⟩
          · rintro _ ⟨⟩
            exact hanswer ▸ hverdict.explains_of_taken _

/-! ### A stage without a function between others -/

def faultyStage : Stage := { Plan.sampleMap with name := "vacía", map := " " }

def faultyRequest : ChainRequest :=
  { sampleRequest with
    stages := [Plan.sampleMap, faultyStage,
      { Plan.sampleMapReduce with reduce := none }] }

def postOf (request : ChainRequest) : HttpRequest :=
  { method := "POST", target := "/api/v1/chains", body := .text request.toJson.text
    contentType := some "application/json" }

private theorem isDetached_sample : IsDetached sampleSetting where
  newJobId _ := rfl
  now _ := rfl

private theorem decodeBody_of_text {α : Type} {decoder : Decoder α}
    {request : HttpRequest} {value : Json} {wanted : α}
    (hclaims : request.claimsJson = true)
    (hbody : request.body = .text value.text)
    (hsize : request.body.size ≤ HttpRequest.bodyLimit)
    (hstable : value.isStable = true)
    (hread : decoder.ofJson value = .ok wanted) :
    request.decodeBody decoder = .ok wanted := by
  have hstart : decoder.ofCharsStart request.body.jsonChars = .ok wanted := by
    rw [hbody, Content.jsonChars, Decoder.ofCharsStart,
      Document.ofChars_text hstable]
    exact hread
  rw [HttpRequest.decodeBody, hclaims, if_neg (by simp),
    if_neg (Nat.not_lt.2 hsize), hstart]

private theorem decodeBody_postOf_faulty :
    (postOf faultyRequest).decodeBody ChainRequest.decoder =
      .ok faultyRequest := by
  have hsize : (postOf faultyRequest).body.size =
      String.utf8Len (faultyRequest.toJson.charsBefore []) :=
    String.utf8ByteSize_ofList _
  refine decodeBody_of_text (by decide) rfl ?_ (by decide +kernel)
    (by decide +kernel)
  rw [hsize]
  decide +kernel

theorem submission_all_or_nothing_faulty :
    (handle sampleSetting "c" (postOf faultyRequest)).run sampleService =
      ((Refusal.badChain (.compilation (.noMap "vacía"))).answer,
        sampleService) := by
  have hroute : Route.ofSegments? (postOf faultyRequest).segments =
      some .chains := by decide
  obtain ⟨hrefused, -, -, hexplains⟩ :=
    submission_all_or_nothing isDetached_sample sampleService "c" rfl hroute
  have hfault : IsFirstFault faultyRequest.stages (.noMap "vacía") :=
    ⟨[Plan.sampleMap], faultyStage, _, rfl, by decide, by decide⟩
  have hanswer := (hexplains faultyRequest decodeBody_postOf_faulty).first
    (by decide) _ hfault
  refine Prod.ext hanswer (hrefused ?_)
  rw [hanswer]
  rfl

end Service

end JobChain
