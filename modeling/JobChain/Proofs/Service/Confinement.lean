import JobChain.Proofs.Execution.Frames
import JobChain.Proofs.Service.Acceptance
import JobChain.Proofs.Store.Opened

/-!
# Confinement

Whatever a service does for a chain that it has accepted, it does strictly
below its data directory: it asks for nothing else, it changes nothing else, and
what comes of the run depends on nothing else. Where a step on the way holds a
wildcard, the search for it reads the names beside it, which may be those in the
data directory.
-/

namespace JobChain

open Execution Store Engine

/-! ## Footprints below a place -/

/-- Work that uses nothing but paths that lead strictly below a base. -/
structure Footprint.LeadsBelow (print : Footprint) (here : Place)
    (base : Path) : Prop where
  lists : ∀ input, print.lists input →
      input.location.LeadsBelow here (placeOf here base)
  opens : ∀ input, print.lists input → ∀ store : Store, IsTree store →
    store.here = here →
    ∀ path ∈ store.opened (Glob.patternIn input.location "*"),
      OpensNear here base input.location path
  reads : ∀ path, print.reads path → path.LeadsBelow here (placeOf here base)
  makes : ∀ path, print.makes path → path.LeadsBelow here (placeOf here base)
  writes : ∀ path, print.writes path → path.LeadsBelow here (placeOf here base)
  clears : ∀ path, print.clears path → path.LeadsBelow here (placeOf here base)

private theorem Store.IsFoundIn.leadsBelow {location path : Path}
    {name : String} {here place : Place} (h : IsFoundIn location name path)
    (hlocation : location.LeadsBelow here place) : path.LeadsBelow here place :=
  hlocation.isBelow_of_extends (h.placeOf_eq here ▸ List.prefix_append ..)

private theorem Engine.leadsBelow_jobPrint {job : Job} {here : Place}
    {base : Path} (hinside : StaysInside job)
    (hon : GoesOnFrom base job.input.location)
    (hinput : job.input.location.LeadsBelow here (placeOf here base))
    (houtput : job.output.location.LeadsBelow here (placeOf here base)) :
    (jobPrint job).LeadsBelow here base := by
  have hdirectory :
      (shuffleDirectory job).LeadsBelow here (placeOf here base) :=
    houtput.child (by decide) (by decide) (by decide)
  have hshuffle : ∀ index,
      (shufflePath (shuffleDirectory job) index).LeadsBelow here
        (placeOf here base) :=
    fun index =>
      hdirectory.child (no_slash_shuffleName index) (isStep_shuffleName index).1
        (isStep_shuffleName index).2
  constructor
  · rintro _ rfl
    exact hinput
  · rintro _ rfl store htree rfl path hpath
    rw [← String.empty_append (s := "*")] at hpath
    exact near_of_mem_opened htree isFront_empty hon hinput hpath
  · rintro path ((rfl | ⟨name, hfound⟩) | ⟨index, rfl⟩)
    · exact hinput
    · exact hfound.leadsBelow hinput
    · exact hshuffle index
  · rintro path (rfl | rfl)
    · exact houtput
    · exact hdirectory
  · rintro path (rfl | ⟨output, side, task, format, hformat, rfl⟩ |
      ⟨index, rfl⟩)
    · exact houtput.child (by decide) (by decide) (by decide)
    · have hslash := hinside output (by rw [hformat]; rfl)
      exact houtput.child (no_slash_outputName hslash side task format)
        (by simp [Path.isStep, outputName_ne])
        (outputName_ne (by decide) output side task format)
    · exact hshuffle index
  · rintro path rfl
    exact hdirectory

/-! ## Runs below a place -/

/-- What is asked for leads strictly below a base, and so does what is found. To
find it, no directory is opened but near the base. -/
def Deed.StaysBelow (registry : Registry) (here : Place) (base : Path) :
    Deed → Prop
  | .asked path _ | .made path _ | .deleted path _ =>
      path.LeadsBelow here (placeOf here base)
  | .listed pattern result =>
      (∃ location front, location.LeadsBelow here (placeOf here base) ∧
          IsFront front ∧ pattern = Glob.patternIn location (front ++ "*") ∧
          ∀ store : Store, IsTree store → store.here = here →
            ∀ path ∈ store.opened pattern, OpensNear here base location path) ∧
        ∀ paths, result = .ok paths → ∀ path ∈ paths,
          path.LeadsBelow here (placeOf here base)
  | .ran job _ => ∃ print : Footprint, print.LeadsBelow here base ∧
      ∀ id, Effort.KeepsTo print (Engine.runJob registry id job) fun _ => True
  | .published job _ => job.output.location.LeadsBelow here (placeOf here base)
  | .observed _ | .told _ | .clocked _ => True

section

variable {σ : Type} {around : Surroundings σ} {place : HasStore σ}
  {registry : Registry}

private theorem Event.staysBelow (h : around.IsLocal place registry)
    {holds : σ → Prop}
    (hholds : ∀ state, holds state → IsTree (place.store state))
    {jobs : List Job} {output : Path} {here : Place} {base : Path}
    (houtput : output.LeadsBelow here (placeOf here base))
    (hjobs : ∀ job ∈ jobs, job.output.location.text ≠ "" ∧
      GoesOnFrom base job.output.location ∧
      job.output.location.LeadsBelow here (placeOf here base) ∧
      (jobPrint job).LeadsBelow here base)
    {event : Event σ} (hof : event.IsOf around)
    (hdue : event.deed.IsDue around holds jobs output)
    (hbefore : holds event.before) :
    event.deed.StaysBelow registry here base := by
  obtain ⟨before, deed, after⟩ := event
  cases deed with
  | asked path there | made path result =>
      obtain rfl := Option.some.inj hdue
      exact houtput
  | deleted path result =>
      rcases hdue with hpath | hfinds
      · obtain rfl := Option.some.inj hpath
        exact houtput
      · obtain ⟨job, hjob, name, hfound⟩ := h.toIsOnStore.isFoundIn hholds
          (fun job hjob => (hjobs job hjob).1) hfinds
        exact hfound.leadsBelow (hjobs job hjob).2.2.1
  | listed pattern result =>
      obtain ⟨job, hjob, hpattern⟩ := hdue
      obtain ⟨front, hfront, rfl⟩ := List.mem_map.1 hpattern
      obtain ⟨hne, hon, hlocation, -⟩ := hjobs job hjob
      have hisFront := Job.isFront_of_mem_fronts hfront
      refine ⟨⟨_, front, hlocation, hisFront, rfl, ?_⟩, ?_⟩
      · rintro store htree rfl path hpath
        exact near_of_mem_opened htree hisFront hon hlocation hpath
      rintro paths rfl path hpath
      have hlisting := (h.toIsOnStore.run_list hof).1
      obtain ⟨name, -, hfound⟩ :=
        of_mem_listing (hholds before hbefore) hne hisFront hlisting.symm hpath
      exact hfound.leadsBelow hlocation
  | ran job answer =>
      exact ⟨_, (hjobs job hdue).2.2.2, fun id => keepsTo_runJob id⟩
  | published job result => exact (hjobs job hdue.1).2.2.1
  | _ => trivial

end

/-! ## Paths below the data directory -/

section

variable {store other : Store} {base path : Path}
  (hstore : store.isDirectory base = true)
  (hother : other.isDirectory base = true) (hhere : other.here = store.here)
  (hconfined : path.isConfined = true)

include hstore hconfined

private theorem holds_join :
    (Scope.below (placeOf store.here base) store other).Holds
      (base.join path) :=
  fun _ =>
    (leadsBelow_join (isDirectory_iff.1 hstore).1.ne_empty hconfined
      store.here).isBelow_of_extends

include hother hhere

private theorem covers_join :
    (Scope.below (placeOf store.here base) store other).Covers
      (base.join path) := by
  obtain ⟨haccepted, hopen⟩ := isDirectory_iff.1 hstore
  obtain ⟨-, hopen'⟩ := isDirectory_iff.1 hother
  rw [hhere] at hopen'
  intro passed hpassed
  rcases mem_walkFrom_join haccepted.ne_empty hconfined hpassed
    with hpassed | hbelow
  · exact .inr ⟨hopen.directories passed hpassed,
      hopen'.directories passed hpassed⟩
  · exact .inl hbelow

end

namespace Service

structure IsQuiet (setting : ServiceSetting) : Prop where
  newJobId : ∀ service, (setting.newJobId service).2.store = service.store
  now : ∀ service, (setting.now service).2.store = service.store

structure IsReady (setting : ServiceSetting) (service : Service) : Prop where
  isTree : IsTree service.store
  directory : service.store.isDirectory setting.data = true

variable {setting : ServiceSetting} {store : Store} {id : String}
  {request : ChainRequest} {accepted : Accepted}

private theorem isLocal_surroundings (hquiet : IsQuiet setting) (id : String) :
    (surroundings setting id).IsLocal place setting.registry where
  toIsOnStore := Surroundings.isOnStore_onStore setting.registry _
    (fun _ _ => rfl) (fun run service => store_report service id _)
    (fun _ _ => rfl) hquiet.now
  runJob_eq job service := by
    refine ⟨(setting.newJobId service).1, ?_⟩
    let around : Surroundings Service :=
      .onStore place setting.registry setting.newJobId
        (fun run => modify (report id fun info => info.updateJob run))
        (fun _ => pure ()) setting.now
    change _ = (((sendJob around.runJob id job).run service).1,
      ((sendJob around.runJob id job).run service).2.store)
    rw [run_sendJob, show place.store service = service.store from rfl,
      ← hquiet.newJobId service]
    split_ifs <;> rfl

private theorem accept_of_not_confined {path : Path}
    (hpath : path ∈ [request.dataset.input, request.dataset.output])
    (hrefused : path.isConfined = false) :
    ∃ refused, accept setting store id request =
      .error (.notConfined refused) := by
  have hsome :
      ([request.dataset.input, request.dataset.output].find? fun path =>
      !path.isConfined).isSome = true :=
    List.find?_isSome.2 ⟨path, hpath, by simp [hrefused]⟩
  obtain ⟨refused, hrefused⟩ := Option.isSome_iff_exists.1 hsome
  exact ⟨refused, by simp [accept, hrefused]⟩

def opened (setting : ServiceSetting) (accepted : Accepted)
    (service : Service) : Service :=
  report accepted.id (fun info => info.start (setting.now service).1)
    (setting.now service).2

def drive {σ : Type} (around : Surroundings σ) (accepted : Accepted)
    (state : σ) : Except IoError ChainOutcome × σ :=
  (Execution.run around accepted.jobs accepted.request.dataset.output
    accepted.request.overwrite accepted.request.trackPaths).run state

abbrev driven (setting : ServiceSetting) (accepted : Accepted)
    (service : Service) : Except IoError ChainOutcome × Service :=
  drive (surroundings setting accepted.id) accepted
    (opened setting accepted service)

/-- The run of an accepted chain stays strictly below the data directory, but
for the names that its searches read to find a step with a wildcard. -/
structure RunsBelow (setting : ServiceSetting) (accepted : Accepted)
    (service : Service) : Prop where
  ended : ((runChain setting accepted).run service).2.store =
      (driven setting accepted service).2.store
  asks : ∃ events : List (Event Service),
    drive (surroundings setting accepted.id).recorded accepted
      (opened setting accepted service, []) =
      ((driven setting accepted service).1, (driven setting accepted service).2,
        events) ∧
    ∀ event ∈ events,
      event.deed.StaysBelow setting.registry service.store.here setting.data ∧
      ChangesBelow (placeOf service.store.here setting.data) event.before.store
        event.after.store
  changes : ChangesBelow (placeOf service.store.here setting.data) service.store
    ((runChain setting accepted).run service).2.store
  depends : ∀ other : Service, IsReady setting other →
    other.store.here = service.store.here →
    (∀ passed, isBelow (placeOf service.store.here setting.data) passed = true →
      other.store.node? passed = service.store.node? passed) →
    ComesAlike place
      (.below (placeOf service.store.here setting.data) service.store
        other.store) accepted.jobs
      (driven setting accepted service).1 (driven setting accepted service).2
      (driven setting accepted other).1 (driven setting accepted other).2

namespace Admits

variable (h : Admits setting store id request accepted)

include h

private theorem dataset_eq :
    accepted.request.dataset.input = setting.data.join request.dataset.input ∧
    accepted.request.dataset.output =
      setting.data.join request.dataset.output := by
  have hrebase : ∀ {path : Path}, path.isConfined = true →
      setting.data.rebase path = setting.data.join path := fun hconfined =>
    if_neg (by simp [(Path.isConfined_iff.1 hconfined).1])
  rw [h.request_eq]
  exact ⟨hrebase h.input_confined, hrebase h.output_confined⟩

theorem hosts {service other : Service} (hready : IsReady setting service)
    (hother : IsReady setting other)
    (hhere : other.store.here = service.store.here) {job : Job}
    (hjob : job ∈ accepted.jobs) :
    (Scope.below (placeOf service.store.here setting.data) service.store
      other.store).Hosts job := by
  have hholds :=
    @holds_join service.store other.store setting.data request.dataset.input
      hready.directory h.input_confined
  have hcovers :=
    covers_join hready.directory hother.directory hhere h.input_confined
  have hcovers' :=
    covers_join hready.directory hother.directory hhere h.output_confined
  have hbelow :=
    leadsBelow_join (isDirectory_iff.1 hready.directory).1.ne_empty
      h.output_confined
    service.store.here
  rw [← h.dataset_eq.1] at hholds hcovers
  rw [← h.dataset_eq.2] at hcovers' hbelow
  exact h.isWired.hosts hcovers'
    (fun _ hinner => hbelow.isBelow_of_extends (isBelow_iff.1 hinner).1) hcovers
    (fun name => hholds.admits (List.prefix_append ..)) hjob

private theorem leadsBelow {here : Place} (hne : setting.data.text ≠ "")
    {job : Job} (hjob : job ∈ accepted.jobs) :
    GoesOnFrom setting.data job.output.location ∧
      job.output.location.LeadsBelow here (placeOf here setting.data) ∧
      (jobPrint job).LeadsBelow here setting.data := by
  have hinput := leadsBelow_join hne h.input_confined here
  have houtput := leadsBelow_join hne h.output_confined here
  have hinputOn := goesOnFrom_join hne h.input_confined
  have houtputOn := goesOnFrom_join hne h.output_confined
  rw [← h.dataset_eq.1] at hinput hinputOn
  rw [← h.dataset_eq.2] at houtput houtputOn
  have hlocation : ∀ ordinal,
      (accepted.request.dataset.jobLocation ordinal).LeadsBelow here
        (placeOf here setting.data) := fun ordinal =>
    houtput.child (Dataset.no_slash_jobDirectory ordinal)
      (Dataset.isStep_jobDirectory ordinal) (Dataset.jobDirectory_ne ordinal
        (by decide))
  have hlocationOn : ∀ ordinal,
      GoesOnFrom setting.data (accepted.request.dataset.jobLocation ordinal) :=
    fun ordinal => houtputOn.child (Dataset.no_slash_jobDirectory ordinal)
      (Dataset.jobDirectory_ne ordinal (by decide))
  obtain ⟨ordinal, hordinal⟩ := h.isWired.isLaidOut.exists_location hjob
  have hjobOutput :
      job.output.location.LeadsBelow here (placeOf here setting.data) :=
    hordinal ▸ hlocation ordinal
  refine ⟨hordinal ▸ hlocationOn ordinal, hjobOutput, ?_⟩
  have hinside := h.isWired.staysInside hjob
  rcases h.isWired.input_cases hjob with hlocated | ⟨before, hlocated⟩
  · apply leadsBelow_jobPrint hinside _ _ hjobOutput
    · exact hlocated ▸ hinputOn
    · exact hlocated ▸ hinput
  · apply leadsBelow_jobPrint hinside _ _ hjobOutput
    · exact hlocated ▸ hlocationOn before
    · exact hlocated ▸ hlocation before

private theorem runsBelow (hquiet : IsQuiet setting) {service : Service}
    (hready : IsReady setting service) :
    RunsBelow setting accepted service := by
  have hlocal := isLocal_surroundings hquiet accepted.id
  have hstored : ∀ service : Service, (opened setting accepted service).store =
      service.store :=
    fun service => (store_report ..).trans (hquiet.now service)
  obtain ⟨haccepted, hopen⟩ := isDirectory_iff.1 hready.directory
  have hdirectory := hopen.directories _ (placeFrom_mem_walkFrom _ _)
  have hsame := sameIn_below hready.isTree hready.isTree rfl fun passed
    (_ : isBelow (placeOf service.store.here setting.data) passed = true) => rfl
  have hsame' :
      SameIn
        (.below (placeOf service.store.here setting.data) service.store
          service.store)
      (place.store (opened setting accepted service))
      (place.store (opened setting accepted service)) := by
    rw [show place.store (opened setting accepted service) =
      service.store from hstored service]
    exact hsame
  have hcovers :=
    covers_join hready.directory hready.directory rfl h.output_confined
  have hholds :=
    @holds_join service.store service.store setting.data request.dataset.output
      hready.directory h.output_confined
  rw [← h.dataset_eq.2] at hcovers hholds
  have hkeeps := @Surroundings.IsLocal.keeps _ _ _ _ hlocal _ _
    (some accepted.request.dataset.output)
    (fun job hjob => (h.hosts hready hready rfl hjob).toHouses) fun _ hsome =>
      Option.some.inj hsome ▸ ⟨hcovers, hholds⟩
  have hended : ((runChain setting accepted).run service).2.store =
      (driven setting accepted service).2.store :=
    (store_report ..).trans (hquiet.now _)
  obtain ⟨events, hrecorded, htrail⟩ :=
    recorded_run_trail accepted.request.dataset.output hkeeps
      accepted.request.overwrite accepted.request.trackPaths hsame' []
  obtain ⟨hkept, hlast⟩ := htrail.invariant hkeeps hsame'
  refine ⟨hended, ⟨events, hrecorded, fun event hevent => ?_⟩, ?_,
    fun other hother hhere hbelow => ?_⟩
  · obtain ⟨hof, hdue⟩ := htrail.forall_events event hevent
    obtain ⟨hbefore, hafter⟩ := hkept event hevent
    have houtput :=
      leadsBelow_join haccepted.ne_empty h.output_confined service.store.here
    rw [← h.dataset_eq.2] at houtput
    refine ⟨event.staysBelow hlocal (fun _ hsame => hsame.isTree) houtput
      (fun job hjob => ?_) hof hdue hbefore,
      .of_sameIn hdirectory hbefore hafter⟩
    exact ⟨(h.hosts hready hready rfl hjob).ne_empty,
      h.leadsBelow haccepted.ne_empty hjob⟩
  · rw [hended]
    exact .of_sameIn hdirectory hsame hlast
  · have hcovers :=
      covers_join hready.directory hother.directory hhere h.output_confined
    rw [← h.dataset_eq.2] at hcovers
    refine abreast_run hlocal (fun job hjob => h.hosts hready hother hhere hjob)
      h.isWired.isLaidOut.last_of_publishes hcovers hholds _ _ ?_
    rw [show place.store (opened setting accepted service) =
      service.store from hstored service,
      show place.store (opened setting accepted other) =
        other.store from hstored other]
    exact sameIn_below hready.isTree hother.isTree hhere hbelow

end Admits

/-- A path is taken only if it leads strictly below the data directory, by its
components; and the run of a chain that is accepted asks for nothing, changes
nothing and depends on nothing but what lies strictly below that directory. -/
theorem run_stays_below_data {setting : ServiceSetting}
    (hquiet : IsQuiet setting) :
    (∀ path : Path, path.isConfined = true → setting.data.text ≠ "" →
      ∃ names ≠ [], (setting.data.join path).components =
        setting.data.components ++ names.map .normal ∧
        ∀ name ∈ names, Path.isStep name = true ∧ name ≠ "..") ∧
      (∀ path : Path, path.isAbsolute = true ∨ path.text = "" ∨
        (∀ component ∈ path.components, component = .current) ∨
        .parent ∈ path.components → path.isConfined = false) ∧
      ∀ (store : Store) (id : String) (request : ChainRequest),
        (∀ path ∈ [request.dataset.input, request.dataset.output],
          path.isConfined = false → ∃ refused, accept setting store id request =
            .error (.notConfined refused)) ∧
        ∀ accepted, accept setting store id request = .ok accepted →
          ∀ service, IsReady setting service →
            RunsBelow setting accepted service := by
  refine ⟨fun path hpath hne => ?_, fun path => Path.not_isConfined,
    fun store id request =>
      ⟨fun path hpath hrefused => accept_of_not_confined hpath hrefused,
      fun accepted haccepted service hready =>
        (admits_of_accept haccepted).runsBelow hquiet hready⟩⟩
  obtain ⟨hcomponents, hsteps, hnames⟩ :=
    Path.components_join_of_isConfined hne hpath
  exact ⟨path.steps, hsteps, hcomponents, hnames⟩

private theorem isReady_sample : IsReady sampleSetting sampleService where
  isTree := @isTree_put _ [] "data" .directory isTree_empty rfl (by decide)
    (by decide)
  directory := by decide

theorem run_stays_below_data_sample :
    sampleRequest.dataset.output.isConfined = true ∧
      (sampleSetting.data.join sampleRequest.dataset.output).components =
        [.normal "data", .normal "out"] ∧
      ChangesBelow ["data"] sampleService.store
        ((runChain sampleSetting sampleAccepted).run sampleService).2.store ∧
      ((runChain sampleSetting sampleAccepted).run sampleService).2.store.node?
        ["data", "out"] = some .directory := by
  obtain ⟨-, -, haccepting⟩ :=
    run_stays_below_data (⟨fun _ => rfl, fun _ => rfl⟩ : IsQuiet sampleSetting)
  have hruns :=
    (haccepting sampleService.store "c" sampleRequest).2 sampleAccepted
      accept_sample
    sampleService isReady_sample
  exact ⟨by decide, by decide, hruns.changes, by decide +kernel⟩

/-! ## A name with a wildcard -/

def bracketedRequest : ChainRequest :=
  { sampleRequest with
    stages := [{ name := "copiar", kind := .mapOnly, map := "identity" }]
    dataset := { input := ⟨"i[1]"⟩, output := ⟨"out"⟩ } }

def bracketedService : Service :=
  { store := (sampleService.store.put ["data", "i[1]"] .directory).put
      ["data", "i[1]", "a.jsonl"] (.file (.text "1\n")) }

def bracketedAccepted : Accepted :=
  (accept sampleSetting bracketedService.store "c"
    bracketedRequest).toOption.getD sampleAccepted

/-- The copy is made, and to find what is copied the data directory is
opened. -/
theorem run_opens_data :
    accept sampleSetting bracketedService.store "c" bracketedRequest =
      .ok bracketedAccepted ∧
      ((runChain sampleSetting bracketedAccepted).run
        bracketedService).2.store.fileAt? ["data", "out", "job-0",
        "part-m-00000.jsonl"] = some (.text "1\n") ∧
      ¬∀ job ∈ bracketedAccepted.jobs,
        ∀ path ∈ bracketedService.store.opened
          (Glob.patternIn job.input.location "*"),
          path.LeadsBelow [] (placeOf [] sampleSetting.data) := by
  refine ⟨rfl, by decide +kernel, fun hbelow => ?_⟩
  have hopened : ∃ job ∈ bracketedAccepted.jobs,
      (⟨"data"⟩ : Path) ∈
        bracketedService.store.opened
          (Glob.patternIn job.input.location "*") := by
    decide +kernel
  obtain ⟨job, hjob, hdata⟩ := hopened
  have hself : isBelow (placeOf [] sampleSetting.data) (placeOf [] ⟨"data"⟩) =
      false := by decide
  rw [← Bool.not_eq_true] at hself
  exact hself (hbelow job hjob _ hdata)

end Service

end JobChain
