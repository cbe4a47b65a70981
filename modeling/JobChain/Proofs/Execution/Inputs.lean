import JobChain.Proofs.Execution.Intermediates

/-!
# Inputs of runs

A run does not look whether its input lies in its output. A file of the input
outlives the run unless it lies there, and then it is lost in a few ways only.
-/

namespace JobChain

open Execution Store

variable {σ : Type} {around : Surroundings σ} {place : HasStore σ}

/-! ## Chains of requests -/

theorem Plan.appendAll_eq_enterAll (plan : Plan) (stages : List Stage) :
    plan.appendAll stages =
      plan.enterAll (stages.map fun stage => (.ofAnyKind, stage)) := by
  induction stages generalizing plan with
  | nil => rfl
  | cons stage rest ih =>
      cases happend : plan.append stage with
      | error error =>
          simp only [appendAll, List.map_cons, enterAll, enter, happend]
      | ok grown =>
          simp only [appendAll, List.map_cons, enterAll, enter, happend, ih]

theorem ChainRequest.chain_eq_ok {request : ChainRequest} {chain : Chain}
    (h : request.chain = .ok chain) :
    Plan.enterAll {} (request.stages.map fun stage => (.ofAnyKind, stage)) =
      .ok chain.plan := by
  rw [← Plan.appendAll_eq_enterAll]
  rw [chain_eq] at h
  cases happend : Plan.appendAll {} request.stages with
  | error error => simp [happend] at h
  | ok plan =>
      simp only [happend, Except.ok.injEq] at h
      rw [← h]

/-! ## Runs from a chain -/

def HasStore.recorded (place : HasStore σ) : HasStore (σ × List (Event σ)) where
  store state := place.store state.1
  withStore store state := (place.withStore store state.1, state.2)

def tellEach (around : Surroundings σ) : List LogLine → StateM σ Unit
  | [] => pure ()
  | line :: rest => do
      around.tell line
      tellEach around rest

theorem recorded_tellEach (h : around.IsOnStore place) (log : List LogLine)
    (state : σ) :
    Recorded state (tellEach around.recorded log) (tellEach around log)
      fun _ after events => calls events = [] ∧
      place.store after = place.store state := by
  induction log generalizing state with
  | nil => exact .pure ⟨rfl, rfl⟩
  | cons line rest ih =>
      simp only [tellEach, Surroundings.recorded_tell]
      refine .record_bind fun _ told htell =>
        (ih told).mono fun _ after events hrest => ?_
      rw [h.run_tell htell] at hrest
      simpa [Event.call?] using hrest

private theorem run_forM_tell {ε : Type} (around : Surroundings σ)
    (log : List LogLine) :
    (log.forM fun line => around.tell line : ExceptT ε (StateM σ) Unit).run =
      Except.ok <$> tellEach around log := by
  induction log with
  | nil => rfl
  | cons line rest ih =>
      rw [List.forM_eq_forM] at ih ⊢
      rw [List.forM_cons, ExceptT.run_bind, ExceptT.run_liftM, bind_map_left,
        tellEach, map_bind]
      exact bind_congr fun _ => ih

def runCompiled (around : Surroundings σ) (output : Path)
    (overwrite trackPaths : Bool) : Except ChainError (List Job) →
    StateM σ (Except ChainError ChainOutcome)
  | .error error => pure (.error error)
  | .ok jobs =>
      Except.mapError .io <$>
        (Execution.run around jobs output overwrite trackPaths).run

theorem Chain.execute_eq (chain : Chain) (around : Surroundings σ)
    (place : HasStore σ) (home? : Option String) (dataset : Dataset)
    (overwrite : Bool) (state : σ) :
    (chain.execute around place home? dataset overwrite).run state =
      (do
        tellEach around (chain.compile (place.store state) home? dataset).1
        runCompiled around dataset.output overwrite chain.trackPaths
          (chain.compile (place.store state) home? dataset).2 :
        StateM σ (Except ChainError ChainOutcome)) state := by
  change (ExceptT.run (do
    (chain.compile (place.store state) home? dataset).1.forM fun line =>
      around.tell line
    let jobs ← ExceptT.mk (pure (chain.compile (place.store state) home? dataset).2)
    (Execution.run around jobs dataset.output overwrite chain.trackPaths).adapt ChainError.io) :
      StateM σ (Except ChainError ChainOutcome)) state = _
  rw [ExceptT.run_bind, run_forM_tell, bind_map_left]
  refine congrFun (bind_congr (m := StateM σ) fun _ => ?_) state
  cases (chain.compile (place.store state) home? dataset).2 <;> rfl

/-- How the files go in a run that may have no jobs to begin with. -/
def Runs (place : HasStore σ) (dataset : Dataset) (overwrite : Bool)
    (start final : Store) (events : List (Event σ)) : Prop :=
  ∃ jobs opened, IsLaidOut dataset jobs ∧
    Opens dataset.output overwrite start opened ∧
    Conducts place (IsGranted events) dataset.output jobs opened
      (calls events) final

private theorem recorded_runCompiled_files (h : around.IsOnStore place)
    {dataset : Dataset} {compiled : Except ChainError (List Job)}
    (hlaid : ∀ jobs, compiled = .ok jobs → IsLaidOut dataset jobs)
    (hconfined : ∀ jobs, compiled = .ok jobs → around.IsConfined place jobs)
    (overwrite trackPaths : Bool) {state : σ}
    (htree : IsTree (place.store state))
    (hhere : (place.store state).node? (place.store state).here =
      some .directory) :
    Recorded state
      (runCompiled around.recorded dataset.output overwrite trackPaths compiled)
      (runCompiled around dataset.output overwrite trackPaths compiled)
      fun _ after events =>
        Runs place dataset overwrite (place.store state)
          (place.store after) events := by
  cases compiled with
  | error error =>
      exact .pure ⟨[], _, ⟨by simp, by simp⟩, ⟨_, .refl _ _, .refl _⟩, .idle⟩
  | ok jobs =>
      have hlaid := hlaid jobs rfl
      simp only [runCompiled, map_eq_pure_bind]
      refine (recorded_run_files h (hconfined jobs rfl)
        (fun _ => hlaid.exists_location) overwrite trackPaths htree hhere).bind
        fun _ after events hfiles => .pure ?_
      obtain ⟨opened, hopens, hconducts⟩ := hfiles
      rw [List.append_nil]
      exact ⟨jobs, opened, hlaid, hopens, hconducts⟩

private theorem recorded_execute_files (h : around.IsOnStore place)
    {request : ChainRequest} {chain : Chain}
    (hchain : request.chain = .ok chain) (home? : Option String) {state : σ}
    (hconfined : ∀ jobs,
      (chain.compile (place.store state) home? request.dataset).2 = .ok jobs →
      around.IsConfined place jobs)
    (htree : IsTree (place.store state))
    (hhere : (place.store state).node? (place.store state).here =
      some .directory) :
    ∃ result final, ∃ events : List (Event σ),
      (chain.execute around place home? request.dataset request.overwrite).run
        state = (result, final) ∧
      (chain.execute around.recorded place.recorded home? request.dataset
        request.overwrite).run (state, []) = (result, final, events) ∧
      Runs place request.dataset request.overwrite (place.store state)
        (place.store final) events := by
  rw [Chain.execute_eq, Chain.execute_eq]
  change ∃ result final events, _ ∧ (do
    tellEach around.recorded (chain.compile (place.store state) home? request.dataset).1
    runCompiled around.recorded request.dataset.output request.overwrite chain.trackPaths
      (chain.compile (place.store state) home? request.dataset).2 :
    StateM (σ × List (Event σ)) (Except ChainError ChainOutcome)) (state,
    []) = _ ∧ _
  generalize hcompile :
    chain.compile (place.store state) home? request.dataset = compiled at *
  obtain ⟨log, compiled⟩ := compiled
  have hlaid : ∀ jobs, compiled = .ok jobs →
      IsLaidOut request.dataset jobs := by
    rintro jobs rfl
    exact isLaidOut_of_compile (ChainRequest.chain_eq_ok hchain)
      (congrArg Prod.snd hcompile)
  have hruns :
      Recorded state (tellEach around.recorded log >>= fun _ =>
        runCompiled around.recorded
      request.dataset.output request.overwrite chain.trackPaths compiled)
      (tellEach around log >>= fun _ =>
        runCompiled around request.dataset.output request.overwrite
          chain.trackPaths compiled) fun _ after events =>
        Runs place request.dataset request.overwrite (place.store state)
          (place.store after) events := by
    refine (recorded_tellEach h log state).bind fun _ told events htold => ?_
    have hcompiled :=
      @recorded_runCompiled_files _ _ _ h _ _ hlaid hconfined request.overwrite
        chain.trackPaths told
    rw [htold.2] at hcompiled
    refine (hcompiled htree hhere).mono fun _ after later hlater => ?_
    obtain ⟨jobs, opened, hlaid, hopens, hconducts⟩ := hlater
    refine ⟨jobs, opened, hlaid, hopens, ?_⟩
    rw [calls_append, htold.1, List.nil_append]
    exact hconducts.mono fun hall => (isGranted_append.1 hall).2
  obtain ⟨events, hrun, hfiles⟩ := hruns []
  exact ⟨_, _, events, rfl, hrun, hfiles⟩

/-! ## Along the upkeep -/

namespace Upkeep

variable {granted : Prop} {output : Path} {jobs : List Job}
  {opened final : Store} {sent : List (Call σ)} {other : Place}

private theorem storeBehind_eq
    (h : Upkeep place granted output none jobs opened sent final)
    (hengine : ∀ call ∈ sent,
      (place.store call.after).node? other =
        (place.store call.before).node? other)
    (hmanifest : ∀ call ∈ sent, ¬call.job.isManifest opened.here other)
    (hpasses : ∀ index (call next : Call σ), sent[index]? = some call →
      sent[index + 1]? = some next → next.succeeds = true →
      ¬call.job.passesOn opened.here other)
    {index : Nat} (hindex : index ≤ sent.length) :
    (storeBehind place sent final index).node? other = opened.node? other := by
  induction index with
  | zero => rw [h.storeBehind_zero]
  | succ index ih =>
      have hcall : sent[index]? = some sent[index] :=
        List.getElem?_eq_getElem (by omega)
      have hmem := List.mem_of_getElem? hcall
      have hhere := (h.turn hcall).2.1.here_eq
      have hbefore : storeBehind place sent final index =
          place.store sent[index].before := by
        simp [storeBehind, hcall]
      rw [← ih (by omega), hbefore, ← hengine _ hmem]
      refine (h.turn hcall).2.2.behind_eq (hhere ▸ hmanifest _ hmem) ?_
      intro hsucceeds previous hprevious
      rw [hhere]
      cases index with
      | zero => cases hprevious
      | succ index =>
          have hbehind : sent[index]? = some sent[index] :=
            List.getElem?_eq_getElem (by omega)
          rw [jobBefore, (h.turn hbehind).1] at hprevious
          obtain rfl := Option.some.inj hprevious
          exact hpasses index _ _ hbehind hcall hsucceeds

private theorem final_eq_opened
    (h : Upkeep place granted output none jobs opened sent final)
    (hengine : ∀ call ∈ sent,
      (place.store call.after).node? other =
        (place.store call.before).node? other)
    (hmanifest : ∀ call ∈ sent, ¬call.job.isManifest opened.here other)
    (hpasses : ∀ index (call next : Call σ), sent[index]? = some call →
      sent[index + 1]? = some next → next.succeeds = true →
      ¬call.job.passesOn opened.here other) :
    final.node? other = opened.node? other := by
  have hfinal : storeBehind place sent final sent.length = final := by
    simp [storeBehind]
  rw [← h.storeBehind_eq hengine hmanifest hpasses (Nat.le_refl _), hfinal]

end Upkeep

/-! ## Files of the input -/

def Store.HoldsFile (store : Store) (path : Path) (other : Place)
    (content : Content) : Prop :=
  placeOf store.here path <+: other ∧ store.node? other = some (.file content)

/-- The ways in which a run comes to a place that may hold a file already. -/
inductive IsExposed (place : HasStore σ) (output : Path) (overwrite : Bool)
    (here : Place) (sent : List (Call σ)) (other : Place) : Prop where
  | cleared (hoverwrite : overwrite = true)
      (hbelow : placeOf here output <+: other)
  | changed {call : Call σ} (hcall : call ∈ sent)
      (hbelow : call.job.place here <+: other)
      (hchanged : (place.store call.after).node? other ≠
        (place.store call.before).node? other)
  | published {call : Call σ} (hcall : call ∈ sent)
      (hmanifest : call.job.isManifest here other)
  | tidied {index : Nat} {call next : Call σ} (hcall : sent[index]? = some call)
      (hnext : sent[index + 1]? = some next) (hsucceeds : next.succeeds = true)
      (hpasses : call.job.passesOn here other)

theorem Opens.node?_eq {output : Path} {overwrite : Bool} {start opened : Store}
    {other : Place} {content : Content}
    (h : Opens output overwrite start opened)
    (hfile : start.node? other = some (.file content))
    (hcleared : ¬(overwrite = true ∧ placeOf start.here output <+: other)) :
    opened.node? other = some (.file content) := by
  obtain ⟨cleared, hshrinks, hgrows⟩ := h
  have hkept := (hshrinks.kept other hcleared).trans hfile
  rcases hgrows.node?_eq other with heq | ⟨hnone, -⟩
  · rw [heq, hkept]
  · simp [hkept] at hnone

namespace Runs

variable {dataset : Dataset} {overwrite : Bool} {start final : Store}
  {events : List (Event σ)} {other : Place}

theorem location_eq (h : Runs place dataset overwrite start final events)
    {call : Call σ} (hcall : call ∈ calls events) :
    ∃ ordinal, call.job.output.location = dataset.jobLocation ordinal := by
  obtain ⟨jobs, opened, hlaid, -, hconducts⟩ := h
  obtain ⟨index, hindex⟩ := List.mem_iff_getElem?.1 hcall
  generalize hsent : calls events = sent at hindex hconducts
  cases hconducts with
  | idle => simp at hindex
  | sent hopen hupkeep =>
      exact ⟨index, hlaid.location_eq index _ (hupkeep.turn hindex).1⟩

private theorem below_of_isExposed
    (h : Runs place dataset overwrite start final events) {here : Place}
    (hexposed : IsExposed place dataset.output overwrite here
      (calls events) other) :
    placeOf here dataset.output <+: other ∧
      (overwrite = true ∨ ∃ ordinal,
        placeOf here (dataset.jobLocation ordinal) <+: other) := by
  have hjob : ∀ call ∈ calls events, call.job.place here <+: other →
      placeOf here dataset.output <+: other ∧
        (overwrite = true ∨ ∃ ordinal,
          placeOf here (dataset.jobLocation ordinal) <+: other) := by
    intro call hcall hbelow
    obtain ⟨ordinal, hlocation⟩ := h.location_eq hcall
    rw [Job.place, hlocation] at hbelow
    refine ⟨?_, .inr ⟨ordinal, hbelow⟩⟩
    rw [dataset.placeOf_jobLocation] at hbelow
    exact (List.prefix_append ..).trans hbelow
  cases hexposed with
  | cleared hoverwrite hbelow => exact ⟨hbelow, .inl hoverwrite⟩
  | changed hcall hbelow => exact hjob _ hcall hbelow
  | published hcall hmanifest =>
      exact hjob _ hcall (Job.place_of_isManifest hmanifest)
  | tidied hcall _ _ hpasses =>
      exact hjob _ (List.mem_of_getElem? hcall) (Job.place_of_passesOn hpasses)

private theorem spares (h : Runs place dataset overwrite start final events)
    {content : Content} (hfile : start.node? other = some (.file content))
    (hexposed : ¬IsExposed place dataset.output overwrite start.here
      (calls events) other) :
    final.node? other = some (.file content) := by
  obtain ⟨jobs, opened, hlaid, hopens, hconducts⟩ := h
  have hopened := hopens.node?_eq hfile fun hcleared =>
    hexposed (.cleared hcleared.1 hcleared.2)
  have hhere := hopens.here_eq
  generalize hsent : calls events = sent at *
  cases hconducts with
  | idle => exact hopened
  | sent hopen hupkeep =>
      rw [← hopened]
      refine hupkeep.final_eq_opened (fun call hcall => ?_)
        (fun call hcall hmanifest => ?_)
        fun index call next hcall hnext hsucceeds hpasses => ?_
      · by_contra hchanged
        obtain ⟨index, hindex⟩ := List.mem_iff_getElem?.1 hcall
        obtain ⟨-, hchanges, hturn⟩ := hupkeep.turn hindex
        refine hexposed (.changed hcall ?_ hchanged)
        by_contra hbeside
        rw [← hhere, ← hchanges.here_eq] at hbeside
        exact hchanged (hturn.confined.kept other hbeside)
      · exact hexposed (.published hcall (hhere ▸ hmanifest))
      · exact hexposed (.tidied hcall hnext hsucceeds (hhere ▸ hpasses))

end Runs

/-- A run from a request loses no file of its input that lies beside the output,
and none within it but by an overwrite, by the engine, by the manifest of the
last job, or as data passed on by a job once the next one has succeeded. -/
theorem execute_spares_inputs (hstore : around.IsOnStore place)
    {request : ChainRequest} {chain : Chain}
    (hchain : request.chain = .ok chain) (home? : Option String) {start : σ}
    (hconfined : ∀ jobs,
      (chain.compile (place.store start) home? request.dataset).2 = .ok jobs →
      around.IsConfined place jobs)
    (htree : IsTree (place.store start))
    (hhere : (place.store start).node? (place.store start).here =
      some .directory) :
    ∃ result final, ∃ events : List (Event σ),
      (chain.execute around place home? request.dataset request.overwrite).run
        start = (result, final) ∧
      (chain.execute around.recorded place.recorded home? request.dataset
        request.overwrite).run (start, []) = (result, final, events) ∧
      (∀ other content,
        (place.store start).HoldsFile request.dataset.input other content →
        ¬IsExposed place request.dataset.output request.overwrite
          (place.store start).here (calls events) other →
        (place.store final).node? other = some (.file content)) ∧
      ∀ other,
        IsExposed place request.dataset.output request.overwrite
          (place.store start).here (calls events) other →
        placeOf (place.store start).here request.dataset.output <+: other ∧
          (request.overwrite = true ∨
            ∃ ordinal,
              placeOf (place.store start).here
                (request.dataset.jobLocation ordinal) <+:
              other) := by
  obtain ⟨result, final, events, hresult, hrecorded, hruns⟩ :=
    recorded_execute_files hstore hchain home? hconfined htree hhere
  exact ⟨result, final, events, hresult, hrecorded,
    fun other content hfile hexposed => hruns.spares hfile.2 hexposed,
    fun other hexposed => hruns.below_of_isExposed hexposed⟩

/-! ## Inputs beside and within an output -/

def requestOf (dataset : Dataset) (overwrite : Bool) : ChainRequest where
  name := "cadena"
  stages := [Plan.sampleMapReduce, Plan.sampleMap]
  dataset := dataset
  options := sampleChain.options
  overwrite := overwrite

def sampleBeside : Store :=
  (sampleStore.put ["in"] .directory).put ["in", "a"] (.file (.text "1"))

private theorem isTree_sampleBeside : IsTree (itself.store sampleBeside) := by
  have hdirectory := @isTree_put _ [] "in" .directory isTree_sampleStore rfl
    (by decide) (by decide)
  exact @isTree_put _ ["in"] "a" _ hdirectory (by decide) (by decide)
    (by decide)

theorem execute_spares_inputs_beside :
    ((sampleChain.execute frugal itself none sampleDataset true).run
      sampleBeside).2.node? ["in", "a"] = some (.file (.text "1")) := by
  have hstore : frugal.IsOnStore itself :=
    Surroundings.isOnStore_onStore _ _ (fun _ _ => rfl) (fun _ _ => rfl)
      (fun _ _ => rfl) fun _ => rfl
  have hchain : (requestOf sampleDataset true).chain = .ok sampleChain := rfl
  have hconfined : ∀ jobs, (sampleChain.compile (itself.store sampleBeside) none
      sampleDataset).2 = .ok jobs → frugal.IsConfined itself jobs := by
    intro jobs hjobs
    obtain rfl : sampleJobs = jobs := Except.ok.inj hjobs
    exact isConfined_frugal
  obtain ⟨result, final, events, hfinal, -, hspares, hbelow⟩ :=
    execute_spares_inputs hstore hchain none hconfined isTree_sampleBeside
      (by decide)
  change (sampleChain.execute frugal itself none sampleDataset true).run
      sampleBeside = _ at hfinal
  rw [hfinal]
  refine hspares ["in", "a"] _ ⟨by decide, by decide⟩ fun hexposed => ?_
  exact absurd (hbelow _ hexposed).1 (by decide)

def still : Surroundings Store :=
  { frugal with runJob := fun _ store => (.ok
    { id := "", status := .succeeded }, store) }

def sampleWithin (other : Place) : Store :=
  sampleStore.put other (.file (.text "1"))

def behindWithin (input : Path) (other : Place) (overwrite : Bool) : Store :=
  ((sampleChain.execute still itself none
    { sampleDataset with input } overwrite).run (sampleWithin other)).2

theorem execute_loses_inputs_within :
    (∀ jobs, still.IsConfined itself jobs) ∧
      ((sampleWithin ["o[u]t", "a"]).HoldsFile ⟨"o[u]t"⟩ ["o[u]t",
        "a"] (.text "1") ∧ (behindWithin ⟨"o[u]t"⟩ ["o[u]t",
          "a"] true).node? ["o[u]t", "a"] = none) ∧
      ((sampleWithin samplePart).HoldsFile
        ⟨"o[u]t/job-0"⟩ samplePart (.text "1") ∧
        (behindWithin ⟨"o[u]t/job-0"⟩ samplePart false).node? samplePart =
          none) ∧
      ((sampleWithin ["o[u]t", "job-1", manifestFile]).HoldsFile ⟨"o[u]t/job-1"⟩
          ["o[u]t", "job-1", manifestFile] (.text "1") ∧
        (behindWithin ⟨"o[u]t/job-1"⟩ ["o[u]t", "job-1",
          manifestFile] false).node? ["o[u]t", "job-1",
          manifestFile] ≠ some (.file (.text "1"))) := by
  refine ⟨fun jobs job _ store => .refl _ _,
    ⟨⟨by decide, by decide⟩, by decide +kernel⟩,
    ⟨⟨by decide, by decide⟩, by decide +kernel⟩,
    ⟨by decide, by decide⟩, by decide +kernel⟩

end JobChain
