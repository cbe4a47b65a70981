import JobChain.Proofs.Engine.Commits
import JobChain.Proofs.Execution.Intermediates

/-!
# From one job to the next

When an engine runs the jobs on the store, each job that has succeeded leaves
its directory to the next as it has made it. So the next one finds the files
that have been committed, and reads their records.
-/

namespace JobChain

open Execution Store Engine

variable {σ : Type} {around : Surroundings σ} {place : HasStore σ}
  {registry : Registry}

/-! ## Engines on a store -/

/-- Surroundings on a store whose jobs are run by the engine of a registry. -/
structure Surroundings.IsLocal (around : Surroundings σ) (place : HasStore σ)
    (registry : Registry) : Prop extends around.IsOnStore place where
  runJob_eq : ∀ job state, ∃ id,
    outcome (Engine.runJob registry id job) (place.store state) =
    (((around.runJob job).run state).1,
      place.store ((around.runJob job).run state).2)

private theorem Surroundings.isLocal_onStore {newId : StateM σ String}
    {observe : JobRun → StateM σ Unit} {tell : LogLine → StateM σ Unit}
    {now : StateM σ Timestamp}
    (hplace : ∀ store state, place.store (place.withStore store state) = store)
    (hnewId : ∀ state, place.store (newId state).2 = place.store state)
    (hobserve : ∀ run state, place.store (observe run state).2 =
      place.store state)
    (htell : ∀ line state, place.store (tell line state).2 = place.store state)
    (hnow : ∀ state, place.store (now state).2 = place.store state) :
    (Surroundings.onStore place registry newId observe tell now).IsLocal place
      registry where
  toIsOnStore :=
    @isOnStore_onStore σ place registry newId observe tell now _ hplace hobserve
      htell hnow
  runJob_eq job state := by
    refine ⟨(newId state).1, ?_⟩
    rw [← hnewId state]
    exact Prod.ext rfl (hplace _ _).symm

theorem Serves.succeeds (h : around.IsLocal place registry) {job : Job}
    {call : Call σ} {before after : Store}
    (hserves : Serves around place job call before after)
    (hsucceeds : call.succeeds = true) :
    ∃ id report,
      Succeeds (Engine.runJob registry id job) before report
        (place.store call.after) ∧
      report.status = .succeeded := by
  obtain ⟨id, hrun⟩ := h.runJob_eq job call.before
  rw [hserves.ran, hserves.before_eq] at hrun
  unfold Call.succeeds at hsucceeds
  split at hsucceeds
  · rename_i report hanswer
    exact ⟨id,
      report, by rw [Succeeds, hrun, hanswer], of_decide_eq_true hsucceeds⟩
  · cases hsucceeds

/-! ## Behind a job -/

theorem TidiesBehind.shrinks {granted : Prop} {output : Path}
    {previous? : Option Job} {before after : Store}
    (h : TidiesBehind granted output previous? before after) :
    Shrinks before after fun other =>
      ∃ previous, previous? = some previous ∧
        previous.passesOn before.here other := by
  cases previous? with
  | none => exact (show after = before from h) ▸ .refl _ _
  | some previous =>
      refine (Tidies.passesOn (fun _ => id) h).mono fun other hpasses =>
        ⟨previous, rfl, hpasses⟩

private theorem IsWired.handsOn {dataset : Dataset} {jobs : List Job}
    (h : IsWired dataset jobs) {index : Nat} {job next : Job}
    (hjob : jobs[index]? = some job)
    (hnext : jobs[index + 1]? = some next) : HandsOn job :=
  ⟨(h.next hjob hnext).1, _, (h.next hjob hnext).2.1⟩

section

variable {dataset : Dataset} {jobs : List Job} {granted : Prop} {index : Nat}
  {job next : Job} {previous? : Option Job} {call : Call σ}
  {inputs : List (List Pair)} {before made ran between tidied : Store}

structure HandsOver (around : Surroundings σ) (place : HasStore σ)
    (registry : Registry) (dataset : Dataset) (jobs : List Job) (granted : Prop)
    (index : Nat) (job : Job) (call : Call σ) (inputs : List (List Pair))
    (before made ran between tidied : Store) : Prop where
  job_eq : jobs[index]? = some job
  serves : Serves around place job call before between
  completes :
      Completes registry job inputs before made ran (place.store call.after)
  tidies : IsTree between →
    TidiesBehind granted dataset.output (jobBefore none jobs index)
      between tidied

namespace HandsOver

variable (h : HandsOver around place registry dataset jobs granted index job
  call inputs before made ran between tidied)

include h

theorem here_eq (htree : IsTree before) : between.here = before.here ∧
    tidied.here = before.here := by
  have hbetween : between.here = before.here := by
    rw [h.serves.manifest.here_eq, h.completes.here_eq]
  have htidies := h.tidies (h.serves.manifest.isTree (h.completes.isTree htree))
  exact ⟨hbetween, htidies.shrinks.here_eq.trans hbetween⟩

theorem isTree (htree : IsTree before) : IsTree tidied := by
  have hbetween := h.serves.manifest.isTree (h.completes.isTree htree)
  exact (h.tidies hbetween).isTree hbetween

variable (hlaid : IsLaidOut dataset jobs)

include hlaid

private theorem not_taken (htree : IsTree before) {other : Place}
    (hbelow : job.place before.here <+: other) :
    ¬∃ previous, jobBefore none jobs index = some previous ∧
      previous.passesOn between.here other := by
  rintro ⟨previous, hprevious, hpasses⟩
  rw [(h.here_eq htree).1] at hpasses
  exact hlaid.jobBefore_ne h.job_eq hprevious (by omega) hbelow hpasses

theorem fileAt?_eq (hnext : jobs[index + 1]? = some next)
    (htree : IsTree before) {other : Place}
    (hbelow : job.place before.here <+: other) :
    tidied.fileAt? other = (place.store call.after).fileAt? other := by
  have hbetween := h.serves.manifest.isTree (h.completes.isTree htree)
  refine fileAt?_congr (((h.tidies hbetween).shrinks.kept other
    (h.not_taken hlaid htree hbelow)).trans (h.serves.manifest.kept other
    fun hmanifest => ?_))
  have hlast := hlaid.last_of_publishes index job h.job_eq hmanifest.1
  have hlt := (List.getElem?_eq_some_iff.1 hnext).1
  omega

theorem clear {index' : Nat} {job' : Job} (hjob' : jobs[index']? = some job')
    (hlater : index ≠ index') (htree : IsTree before) {other : Place}
    (hbelow : job'.place before.here <+: other)
    (hnone : before.fileAt? other = none) : tidied.fileAt? other = none := by
  have hbetween := h.serves.manifest.isTree (h.completes.isTree htree)
  have hbeside : ¬job.place before.here <+: other :=
    hlaid.not_below hjob' h.job_eq (by omega) hbelow
  refine (h.tidies hbetween).shrinks.fileAt?_eq_none ?_
  have hmanifest :
      ¬job.isManifest (place.store call.after).here other := fun hmanifest => by
    rw [h.completes.here_eq] at hmanifest
    exact hbeside (Job.place_of_isManifest hmanifest)
  rw [fileAt?_congr (h.serves.manifest.kept other hmanifest),
    Option.eq_none_iff_forall_ne_some]
  intro content hfile
  rcases h.completes.of_fileAt? hfile with hholds | ⟨hmark, -⟩ | hbefore
  · obtain ⟨side, task, output, format, -, -⟩ := hholds
    exact hbeside (List.prefix_append ..)
  · exact hbeside (hmark ▸ List.prefix_append ..)
  · simp [hnone] at hbefore

theorem isOpen (houtside : StaysOutside before.here dataset.output jobs)
    (htree : IsTree before) :
    IsOpen tidied (startOf tidied.here job.output.location)
      job.output.location.steps := by
  have hbetween := h.serves.manifest.isTree (h.completes.isTree htree)
  obtain ⟨hhere, hhere'⟩ := h.here_eq htree
  have hafter :=
    isOpen_of_read (by decide : IsName successMark) h.completes.mark.read_eq
  rw [h.completes.here_eq] at hafter
  rw [hhere']
  refine (h.tidies hbetween).shrinks.toChangesAt.isOpen
    (fun passed hpassed => ?_) (h.serves.manifest.isOpen_iff.2 hafter)
  have hlocation := hlaid.location_eq index job h.job_eq
  rw [hlocation, dataset.startOf_jobLocation, dataset.steps_jobLocation,
    walkFrom_concat, List.mem_append, List.mem_singleton] at hpassed
  rcases hpassed with hpassed | rfl
  · rintro ⟨previous, hprevious, hpasses⟩
    rw [hhere] at hpasses
    refine houtside passed hpassed previous ?_ (Job.place_of_passesOn hpasses)
    cases index with
    | zero => cases hprevious
    | succ index => exact List.mem_of_getElem? hprevious
  · refine h.not_taken hlaid htree ?_
    rw [place_eq_placeFrom hlocation, placeFrom_append]
    exact List.prefix_refl _

theorem keeps (hnext : jobs[index + 1]? = some next)
    (houtside : StaysOutside before.here dataset.output jobs)
    (htree : IsTree before)
    (hclear : ∀ other, job.place before.here <+: other →
      before.fileAt? other = none) :
    Keeps registry job inputs tidied := by
  have hlocation := hlaid.location_eq index job h.job_eq
  have hhere := (h.here_eq htree).2
  have hsteps : job.output.location.steps ≠ [] := by
    simp [hlocation, dataset.steps_jobLocation]
  have hne : job.output.location.text ≠ "" :=
    fun hempty => hsteps (Path.steps_of_empty hempty)
  have haccepted :=
    isAccepted_of_child (by decide) hne h.completes.mark.accepted
  have hkept : ∀ {other : Place}, job.place before.here <+: other →
      tidied.fileAt? other = (place.store call.after).fileAt? other :=
    fun hbelow => h.fileAt?_eq hlaid hnext htree hbelow
  refine ⟨h.isTree htree, h.isOpen hlaid houtside htree, haccepted,
    hlocation ▸ dataset.getLast?_jobLocation index, hsteps,
    h.completes.finishes.stands.known, fun other content hholds => ?_,
    fun other content hbelow hfile => ?_⟩
  · rw [hhere] at hholds
    have hbelow : job.place before.here <+: other := by
      obtain ⟨side, task, output, format, -, -⟩ := hholds
      exact List.prefix_append ..
    rw [hkept hbelow]
    exact h.completes.file hholds
  · rw [hhere] at hbelow ⊢
    rw [hkept hbelow] at hfile
    rcases h.completes.of_fileAt? hfile with hholds | hmark | hbefore
    · exact .inl hholds
    · exact .inr hmark
    · simp [hclear other hbelow] at hbefore

end HandsOver

/-! ## Along a run -/

theorem FreeUpkeep.exists_head {output : Path} {rest : List Job}
    {sent : List (Call σ)} {after : Store}
    (h : FreeUpkeep around place granted output previous?
      (job :: rest) before sent after) :
    ∃ call later, sent = call :: later ∧ call.job = job ∧
      place.store call.before = before := by
  cases h with
  | failed hserves _ => exact ⟨_, _, rfl, hserves.job_eq, hserves.before_eq⟩
  | passed hserves _ _ _ => exact ⟨_, _, rfl, hserves.job_eq, hserves.before_eq⟩

/-- A call that has succeeded, with the records that it has read, and the next
one behind it. -/
def IsFollowed (place : HasStore σ) (registry : Registry)
    (call later : Call σ) : Prop :=
  ∃ inputs,
      (∃ paths, call.job.input.files (place.store call.before) = .ok paths ∧
      List.Forall₂ ((place.store call.before).Reads call.job.input.format) paths
        inputs) ∧
    Keeps registry call.job inputs (place.store later.before)

private theorem Serves.exists_handsOver (hlocal : around.IsLocal place registry)
    (hwired : IsWired dataset jobs) (hjob : jobs[index]? = some job)
    (hnext : jobs[index + 1]? = some next)
    (hserves : Serves around place job call before between)
    (hsucceeds : call.succeeds = true) (htree : IsTree before)
    (htidies : IsTree between →
      TidiesBehind granted dataset.output (jobBefore none jobs index) between
        tidied) :
    ∃ inputs made ran,
      HandsOver around place registry dataset jobs granted index job call
        inputs before
      made ran between tidied := by
  obtain ⟨id, report, hrun, hstatus⟩ := hserves.succeeds hlocal hsucceeds
  obtain ⟨inputs, made, ran, hcompletes⟩ :=
    completes_of_runJob (hwired.handsOn hjob hnext).sharesFormat.staysInside
      htree hrun hstatus
  exact ⟨inputs, made, ran, hjob, hserves, hcompletes, htidies⟩

private theorem HandsOver.isFollowed
    (h : HandsOver around place registry dataset jobs granted index job call
      inputs before made ran between tidied) (hlaid : IsLaidOut dataset jobs)
    (hnext : jobs[index + 1]? = some next)
    (houtside : StaysOutside before.here dataset.output jobs)
    (htree : IsTree before)
    (hclear : ∀ other, job.place before.here <+: other →
      before.fileAt? other = none)
    {later : Call σ} (hlater : place.store later.before = tidied) :
    IsFollowed place registry call later := by
  refine ⟨inputs, ?_, ?_⟩
  · rw [h.serves.job_eq, h.serves.before_eq]
    exact h.completes.reads
  · rw [h.serves.job_eq, hlater]
    exact h.keeps hlaid hnext houtside htree hclear

private theorem FreeUpkeep.isFollowed (hlocal : around.IsLocal place registry)
    (hwired : IsWired dataset jobs) {here : Place}
    (houtside : StaysOutside here dataset.output jobs) {rest : List Job}
    {sent : List (Call σ)} {after : Store} {offset : Nat}
    (h : FreeUpkeep around place granted dataset.output previous? rest before
      sent after)
    (hprevious : previous? = jobBefore none jobs offset)
    (hrest : ∀ index, rest[index]? = jobs[offset + index]?)
    (hhere : before.here = here) (htree : IsTree before)
    (hclear : ∀ (index : Nat) (job : Job), rest[index]? = some job →
      ∀ other, job.place here <+: other →
      before.fileAt? other = none)
    {index : Nat} {call : Call σ} (hcall : sent[index]? = some call)
    (hsucceeds : call.succeeds = true) (hnext : rest[index + 1]? = some next) :
    ∃ later, sent[index + 1]? = some later ∧ rest[index]? = some call.job ∧
      later.job = next ∧ IsFollowed place registry call later := by
  induction h generalizing offset index call next with
  | done => cases hcall
  | failed hserves hfails =>
      cases index with
      | zero =>
          obtain rfl := Option.some.inj hcall
          rw [hfails] at hsucceeds
          cases hsucceeds
      | succ index => cases hcall
  | @passed previous? job rest first later before between tidied after hserves
      hfirst htidies hpassed ih =>
      have hjob : jobs[offset]? = some job := (hrest 0).symm
      cases rest with
      | nil => cases hnext
      | cons job' rest =>
          have hjob' : jobs[offset + 1]? = some job' := (hrest 1).symm
          obtain ⟨inputs, made, ran, hover⟩ :=
            hserves.exists_handsOver hlocal hwired hjob hjob' hfirst htree
              (hprevious ▸ htidies)
          subst hhere
          cases index with
          | zero =>
              obtain rfl := Option.some.inj hcall
              obtain rfl := Option.some.inj hnext
              obtain ⟨second, others, rfl, hsecond, hbefore⟩ :=
                FreeUpkeep.exists_head hpassed
              exact ⟨second, rfl, hserves.job_eq ▸ rfl, hsecond,
                hover.isFollowed hwired.isLaidOut hjob' houtside htree
                  (hclear 0 job rfl) hbefore⟩
          | succ index =>
              have hclear' : ∀ (index : Nat) (job : Job),
                  (job' :: rest)[index]? = some job →
                  ∀ other, job.place before.here <+: other →
                    tidied.fileAt? other = none := by
                intro index later hlater other hbelow
                have hlater' : jobs[offset + (index + 1)]? = some later :=
                  (hrest (index + 1)).symm.trans hlater
                exact hover.clear hwired.isLaidOut hlater'
                  (by omega) htree hbelow
                  (hclear (index + 1) later hlater other hbelow)
              refine @ih next (offset + 1) ?_ ?_ (hover.here_eq htree).2
                (hover.isTree htree) hclear' index call hcall hsucceeds hnext
              · rw [jobBefore, hjob]
              · intro index
                rw [Nat.add_right_comm, Nat.add_assoc]
                exact hrest (index + 1)

end

/-- What the next job lists and reads of what a job has left. If a search for
the output goes astray it lists no file. Records that come back from the format
between jobs are all read; one with too many levels keeps the files from being
read. -/
structure ReadsOn (registry : Registry) (job next : Job)
    (inputs : List (List Pair)) (later : Store) : Prop where
  astray : goesAstray job.output.location = true →
      next.input.files later = .ok []
  on_way : goesAstray job.output.location = false →
    ∃ paths, next.input.files later = .ok paths ∧
    paths.Perm ((committedFiles registry job inputs).map (committedPath job)) ∧
    ((∀ pair ∈ committed registry job inputs, pair.Returns) →
      ∃ parts, List.Forall₂ (later.Reads next.input.format) paths parts ∧
        parts.flatten.Perm (committed registry job inputs)) ∧
    ∀ parts, List.Forall₂ (later.Reads next.input.format) paths parts →
      ∀ pair ∈ committed registry job inputs, pair.isStable = true →
        pair.IsShallow

private theorem Engine.Keeps.readsOn {job next : Job}
    {inputs : List (List Pair)} {later : Store}
    (h : Keeps registry job inputs later) (hhands : HandsOn job)
    (hinput : next.input =
      { location := job.output.location, format := .intermediate }) :
    ReadsOn registry job next inputs later where
  astray hastray := h.files_of_astray (by rw [hinput]) hastray
  on_way hway := by
    obtain ⟨paths, hfiles, hperm, hreads⟩ := h.reads hway hhands hinput
    refine ⟨paths, hfiles, hperm, hreads, fun parts hparts => ?_⟩
    rw [hinput] at hparts
    exact h.isShallow_of_reads hway hhands hperm hparts

/-- Behind each job of a compiled chain that succeeds, the next one lists the
files that have been committed for it, and no other ones. It reads all their
records as long as these come back from the format between jobs. -/
theorem run_reads_what_is_left (hlocal : around.IsLocal place registry)
    {chain : Chain} {entries : List (Plan.Entry × Stage)} {packages : Store}
    {home? : Option String} {dataset : Dataset} {jobs : List Job}
    (hgrown : Plan.enterAll {} entries = .ok chain.plan)
    (hcompile : (chain.compile packages home? dataset).2 = .ok jobs) {start : σ}
    (htree : IsTree (place.store start))
    (hhere : (place.store start).node? (place.store start).here =
      some .directory)
    (hfresh : ∀ job ∈ jobs, ∀ other,
      job.place (place.store start).here <+: other →
      (place.store start).fileAt? other = none)
    (houtside : StaysOutside (place.store start).here dataset.output jobs)
    (overwrite trackPaths : Bool) :
    ∃ result final, ∃ events : List (Event σ),
      (Execution.run around jobs dataset.output overwrite trackPaths).run
        start = (result, final) ∧
      (Execution.run around.recorded jobs dataset.output overwrite
        trackPaths).run (start, []) =
        (result, final, events) ∧
      ∀ (index : Nat) (call : Call σ) (next : Job),
        (calls events)[index]? = some call →
        call.succeeds = true → jobs[index + 1]? = some next →
        ∃ later, jobs[index]? = some call.job ∧
          (calls events)[index + 1]? = some later ∧
          later.job = next ∧
          ∃ paths inputs, call.job.input.files (place.store call.before) =
            .ok paths ∧
            List.Forall₂ ((place.store call.before).Reads call.job.input.format)
              paths inputs ∧
            ReadsOn registry call.job next inputs
              (place.store later.before) := by
  have hwired := isWired_of_compile hgrown hcompile
  obtain ⟨events, hrun, opened, hopens, hproceeds⟩ :=
    recorded_run_passage hlocal.toIsOnStore
      (fun _ => hwired.isLaidOut.exists_location) overwrite trackPaths hhere []
  rw [List.nil_append] at hrun
  refine ⟨_, _, events, rfl, hrun, ?_⟩
  intro index call next hcall hsucceeds hnext
  generalize hsent : calls events = sent at hproceeds hcall
  cases hproceeds with
  | idle => cases hcall
  | sent hopen hpassage =>
      have hclear : ∀ (index : Nat) (job : Job), jobs[index]? = some job →
          ∀ other, job.place (place.store start).here <+: other →
            opened.fileAt? other = none := by
        intro index job hjob other hbelow
        obtain ⟨cleared, hshrinks, hgrows⟩ := hopens
        rw [hgrows.fileAt?_eq]
        exact hshrinks.fileAt?_eq_none
          (hfresh job (List.mem_of_getElem? hjob) other hbelow)
      obtain ⟨later, hlater, hjob, rfl, inputs, ⟨paths, hfiles, hreads⟩,
          hkeeps⟩ :=
        @FreeUpkeep.isFollowed _ _ _ _ _ _ _ _ _ _ hlocal hwired _ houtside jobs
          _ _ 0 hpassage rfl
          (by simp) hopens.here_eq (hopens.isTree htree) hclear index call hcall
          hsucceeds hnext
      have hinput := (hwired.next hjob hnext).2.2
      exact ⟨later, hjob, hlater, rfl, paths, inputs, hfiles, hreads,
        hkeeps.readsOn (hwired.handsOn hjob hnext) hinput⟩

/-! ## A count and the job behind it -/

def countingStage : Stage :=
  { name := "contar", kind := .mapReduce, map := "group-count", reduce := some "sum"
    mapOutput := some ⟨.json, .long⟩, reduceOutput := some ⟨.json, .long⟩
    options := .ofList [(Builtin.groupOption, "n")] }

def countingChain : Chain where
  plan := { mode := .openMaps, blocks := [⟨0, [countingStage]⟩,
    ⟨1, [Plan.sampleMap]⟩] }
  options := SortedMap.empty.insert Options.package "stages.jar"
  trackPaths := false

def countingDataset : Dataset := { input := ⟨"in"⟩, output := ⟨"out"⟩ }

def countingJobs : List Job :=
  ((countingChain.compile {} none countingDataset).2.toOption).getD []

def ordinary : Surroundings Store :=
  .onStore itself .builtin (pure "") (fun _ => pure ())
    (fun _ => pure ()) (pure { seconds := 0 })

theorem isLocal_ordinary : ordinary.IsLocal itself .builtin :=
  Surroundings.isLocal_onStore (fun _ _ => rfl) (fun _ => rfl) (fun _ _ => rfl)
    (fun _ _ => rfl) fun _ => rfl

def countingEvents : List (Event Store) :=
  ((Execution.run ordinary.recorded countingJobs countingDataset.output false
    false).run (countedStore, [])).2.2

private theorem returns_countedRecord : countedRecord.Returns where
  key := Json.returns_of_flat rfl rfl _
  value := {
    canonical := ⟨List.pairwise_pair.2 (by decide), trivial, trivial, trivial⟩
    stable := by decide
    shallow := by decide }

theorem run_reads_what_is_left_counted :
    ∃ first second, calls countingEvents = [first, second] ∧
      first.succeeds = true ∧ ∃ paths parts,
      second.job.input.files second.before = .ok paths ∧
        List.Forall₂ (second.before.Reads second.job.input.format) paths parts ∧
        parts.flatten.Perm [⟨.string "a", .ofNat 2⟩, countedRecord] := by
  have hgrown : Plan.enterAll {} [(.ofMapReduce, countingStage),
      (.ofMap, Plan.sampleMap)] =
      .ok countingChain.plan := by rfl
  have hcompile : (countingChain.compile {} none countingDataset).2 =
      .ok countingJobs := by rfl
  have hfronts : ∀ job ∈ countingJobs, ["out"] <+: job.place [] := by decide
  obtain ⟨result, final, events, -, hrun, hreads⟩ :=
    run_reads_what_is_left isLocal_ordinary hgrown hcompile
      (show IsTree (itself.store countedStore) from isTree_countedStore)
      (by decide)
    (fun job hjob other hbelow =>
      fileAt?_countedStore (by decide) ((hfronts job hjob).trans hbelow))
        (by decide) false false
  obtain rfl : countingEvents = events := by rw [countingEvents, hrun]
  have hanswers : (calls countingEvents).map Call.succeeds = [true, false] := by
    decide +kernel
  have hinputs : (calls countingEvents).head?.map (fun call =>
      (call.job.input.files call.before).toOption.map fun paths =>
        paths.map (call.before.recordsAt call.job.input.format)) =
          some (some [[countedRecord]]) := by decide +kernel
  obtain ⟨first, second, hsent⟩ : ∃ first second, calls countingEvents = [first,
      second] :=
    List.length_eq_two.1 (by simpa using congrArg List.length hanswers)
  rw [hsent] at hanswers hinputs hreads
  have hsucceeds : first.succeeds = true := by
    simpa using (List.cons.inj hanswers).1
  obtain ⟨later, hjob, hlater, hnext, paths, inputs, hfiles, hrecords, hon⟩ :=
    hreads 0 first _ rfl hsucceeds rfl
  obtain rfl : second = later := Option.some.inj hlater
  rw [← hnext] at hon
  obtain rfl : inputs = [[countedRecord]] := by
    change some ((first.job.input.files first.before).toOption.map _) = _
        at hinputs
    rw [show first.job.input.files first.before = .ok paths from hfiles]
      at hinputs
    rw [← map_recordsAt hrecords]
    exact Option.some.inj (Option.some.inj hinputs)
  have hcommitted : ∀ job ∈ countingJobs[0]?,
      goesAstray job.output.location = false ∧
      committed .builtin job [[countedRecord]] = [⟨.string "a", .ofNat 2⟩,
        countedRecord] := by
    decide +kernel
  obtain ⟨hway, hleft⟩ := hcommitted first.job hjob
  obtain ⟨paths, hfiles, -, hparts, -⟩ := hon.on_way hway
  rw [hleft] at hparts
  have hreturns : ∀ pair ∈ [⟨.string "a", .ofNat 2⟩, countedRecord],
      pair.Returns := by
    intro pair hpair
    rcases List.mem_pair.1 hpair with rfl | rfl
    · exact ⟨Json.returns_of_flat rfl rfl _, Json.returns_of_flat rfl rfl _⟩
    · exact returns_countedRecord
  obtain ⟨parts, hparts, hperm⟩ := hparts hreturns
  exact ⟨first, second, hsent, hsucceeds, paths, parts, hfiles, hparts, hperm⟩

end JobChain
