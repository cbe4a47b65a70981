import JobChain.Proofs.Compilation
import JobChain.Proofs.Execution.Frames
import JobChain.Proofs.Execution.Handover
import JobChain.Proofs.Execution.Inputs
import JobChain.Proofs.Store.Remaking

/-!
# Overwriting

A run that overwrites its output begins without anything that has been there.
What comes of it does not tell what has been, and running again comes to the
same.
-/

namespace JobChain

open Engine Execution Store

open Path (isStep)

namespace Store

variable {store other : Store} {path : Path}

/-! ## All of two stores -/

private theorem sameIn_whole (htree : IsTree store) (htree' : IsTree other)
    (hhere : other.here = store.here)
    (hnodes : ∀ place, other.node? place = store.node? place) :
    SameIn (.whole store.here) store other where
  here_eq := rfl
  here_eq' := hhere
  node place _ := .inl (hnodes place)
  kept _ hnot := absurd trivial hnot
  kept' _ hnot := absurd trivial hnot
  isTree := htree
  isTree' := htree'

private theorem hosts_whole {dataset : Dataset} {jobs : List Job}
    (hwired : IsWired dataset jobs) (here : Place) {job : Job}
    (hjob : job ∈ jobs) : (Scope.whole here).Hosts job :=
  hwired.hosts (Scope.covers_whole here _)
    (fun _ _ => trivial) (Scope.covers_whole here _)
    (fun _ => .inl trivial) hjob

/-! ## Erased outputs -/

namespace IsErasable

private theorem of_none (h : IsErasable store path)
    (hhere : other.here = store.here)
    (hnone : other.node? (placeOf other.here path) = none) :
    IsErasable other path where
  accepted := h.accepted
  ends := h.ends
  plain _ content := by simp [hnone]
  outside := hhere ▸ h.outside
  reached hsome := absurd hnone hsome

private theorem isTree_erased
    (htree : IsTree store) : IsTree (store.erased path) :=
  (shrinks_erased path store).isTree htree

private theorem sameIn_erased (h : IsErasable store path)
    (h' : IsErasable other path) (htree : IsTree store) (htree' : IsTree other)
    (hhere : other.here = store.here)
    (houtside : ∀ place, ¬placeOf store.here path <+: place →
      other.node? place = store.node? place) :
    SameIn (.whole store.here) (store.erased path) (other.erased path) := by
  have hloses := h.loses_erased htree
  have hloses' := h'.loses_erased htree'
  rw [hhere] at hloses'
  have hsame := @sameIn_whole (store.erased path) (other.erased path)
    (isTree_erased htree) (isTree_erased htree')
    (by rw [hloses.here_eq, hloses'.here_eq, hhere]) fun place => by
      by_cases hbelow : placeOf store.here path <+: place
      · rw [hloses.gone place hbelow, hloses'.gone place hbelow]
      · rw [hloses.kept place hbelow, hloses'.kept place hbelow,
          houtside place hbelow]
  rwa [hloses.here_eq] at hsame

end IsErasable

/-! ## What a run leaves -/

/-- How a run of jobs ends and leaves a store in which there was no output. -/
inductive Leaves (jobs : List Job) (output : Path) (store : Store) :
    Except IoError ChainOutcome → Store → Prop where
  | idle {result : Except IoError ChainOutcome} (hjobs : jobs.isEmpty = true) :
      Leaves jobs output store result store
  | refused {error : IoError} {made : Store} (hjobs : jobs.isEmpty = false)
      (hmade : makeDirectories output store = (.error error, made)) :
      Leaves jobs output store (.error error) made
  | ran {result : Except IoError ChainOutcome}
      {made final : Store} (hjobs : jobs.isEmpty = false)
      (hmade : makeDirectories output store = (.ok (), made))
      (hchanges : ChangesBelow (placeOf made.here output) made final) :
      Leaves jobs output store result final

namespace IsErasable

variable (h : IsErasable store path) (htree : IsTree store)

include h htree

private theorem node?_erased :
    (store.erased path).node? (placeOf (store.erased path).here path) =
      none := by
  have hloses := h.loses_erased htree
  rw [hloses.here_eq]
  exact hloses.gone _ (List.prefix_refl _)

private theorem of_erased : IsErasable (store.erased path) path :=
  h.of_none (h.loses_erased htree).here_eq (h.node?_erased htree)

private theorem makeDirectories_erased
    (hsome : store.node? (placeOf store.here path) ≠ none) :
    makeDirectories path (store.erased path) =
      (.ok (),
        (store.erased path).put (placeOf store.here path) .directory) := by
  have hloses := h.loses_erased htree
  have hway : IsOpen (store.erased path) (startOf (store.erased path).here path)
      ((routeOf path).before.filter isStep) := by
    rw [startOf, hloses.here_eq]
    refine ⟨fun passed hpassed => ?_, (h.reached hsome).short⟩
    rw [hloses.kept passed (h.outside passed hpassed)]
    exact (h.reached hsome).directories passed hpassed
  rw [← hloses.here_eq]
  exact makeDirectories_of_isOpen h.accepted (h.isName htree hsome) hway
    (h.node?_erased htree)

section

variable {made final : Store}
  (hmade : makeDirectories path store = (.ok (), made))

include hmade

omit htree in
private theorem of_made
    (hchanges : ChangesBelow (placeOf made.here path) made final) :
    IsErasable final path := by
  obtain ⟨hgrows, hdirectory⟩ := makeDirectories_spec path store
  rw [hmade] at hgrows hdirectory
  obtain ⟨-, hopen⟩ :=
    isDirectory_iff.1 ((hdirectory rfl).resolve_left h.accepted.ne_empty)
  have hhere : final.here = store.here := hchanges.here_eq.trans hgrows.here_eq
  obtain ⟨hbefore, -⟩ := (isOpen_steps_iff h.ends).1 hopen
  rw [hgrows.here_eq] at hbefore
  have hway :
      IsOpen final (startOf store.here path)
        ((routeOf path).before.filter isStep) := by
    refine ⟨fun passed hpassed => ?_, hbefore.short⟩
    rw [hchanges.kept passed]
    · exact hbefore.directories passed hpassed
    · by_contra hinner
      rw [hgrows.here_eq] at hinner
      exact h.outside passed hpassed (isBelow_iff.1 (by simpa using hinner)).1
  exact {
    accepted := h.accepted
    ends := h.ends
    plain := fun _ content => by
      rw [hhere, ← hgrows.here_eq, hchanges.directory]
      simp
    outside := hhere ▸ h.outside
    reached := fun _ => hhere ▸ hway }

private theorem node?_made
    (hnone : store.node? (placeOf store.here path) = none) {place : Place}
    (hbelow : placeOf store.here path <+: place)
    (hne : place ≠ placeOf store.here path) : made.node? place = none := by
  have hinner := h.makeDirectories_below (isBelow_iff.2 ⟨hbelow, hne.symm⟩)
  rw [hmade] at hinner
  rw [hinner, htree.eq_none_below hbelow hne.symm (by simp [hnone])]

private theorem again (hnone : store.node? (placeOf store.here path) = none)
    (hchanges : ChangesBelow (placeOf made.here path) made final) :
    IsErasable final path ∧ ∃ remade, makeDirectories path (final.erased path) =
      (.ok (), remade) ∧ SameIn (.whole store.here) made remade := by
  have hgrows := (makeDirectories_spec path store).1
  rw [hmade] at hgrows
  have hhere : final.here = store.here := hchanges.here_eq.trans hgrows.here_eq
  have hbelow := hchanges.kept
  have hplace := hchanges.directory
  rw [hgrows.here_eq] at hbelow hplace
  have herasable := h.of_made hmade hchanges
  have hloses := herasable.loses_erased hchanges.isTree
  have hremade := herasable.makeDirectories_erased hchanges.isTree
    (by simp [hhere, hplace])
  have hregrows := (makeDirectories_spec path (final.erased path)).1
  rw [hremade] at hregrows
  refine ⟨herasable, _, hremade,
    hgrows.here_eq ▸
    sameIn_whole (hgrows.isTree htree)
      (hregrows.isTree (isTree_erased hchanges.isTree)) ?_ fun place => ?_⟩
  · rw [hregrows.here_eq, hloses.here_eq, hhere, hgrows.here_eq]
  · rw [hhere] at hloses
    rw [hhere, node?_put _ _ _ _ h.ne_nil]
    by_cases heq : place = placeOf store.here path
    · rw [if_pos heq, heq, ← hbelow _ (by simp [isBelow]), hplace]
    · rw [if_neg heq]
      by_cases hbegins : placeOf store.here path <+: place
      · rw [hloses.gone place hbegins,
          h.node?_made htree hmade hnone hbegins heq]
      · rw [hloses.kept place hbegins, hbelow place]
        by_contra hinner
        exact hbegins (isBelow_iff.1 (by simpa using hinner)).1

end

end IsErasable

def CanBeMadeAgain (store : Store) (path : Path) : Prop :=
  ".." ∉ path.steps ∨
    IsOpen store (startOf store.here path) ((routeOf path).before.filter isStep)

theorem Leaves.opensAlike {jobs : List Job} {start final : Store}
    {output : Path} {result : Except IoError ChainOutcome}
    (hleaves : Leaves jobs output (start.erased output) result final)
    (h : IsErasable start output) (htree : IsTree start)
    (hway : ∀ error, result = .error error → CanBeMadeAgain start output) :
    IsErasable final output ∧ IsTree final ∧ final.here = start.here ∧
      OpensAlike (.whole start.here) jobs output (start.erased output)
        (final.erased output) := by
  have herased := h.of_erased htree
  have htree' := @IsErasable.isTree_erased _ output htree
  have hloses := h.loses_erased htree
  have hnone := h.node?_erased htree
  unfold OpensAlike
  cases hleaves with
  | idle hjobs =>
      rw [if_pos hjobs]
      exact ⟨herased, htree', hloses.here_eq,
        h.sameIn_erased herased htree htree' hloses.here_eq hloses.kept⟩
  | refused hjobs hmade =>
      have hgrows := (makeDirectories_spec output (start.erased output)).1
      rw [hmade] at hgrows
      have hway' : CanBeMadeAgain (start.erased output) output := by
        refine (hway _ rfl).imp id fun hopen =>
          ⟨fun passed hpassed => ?_, hopen.short⟩
        rw [startOf, hloses.here_eq] at hpassed
        rw [hloses.kept passed (h.outside passed hpassed)]
        exact hopen.directories passed hpassed
      obtain ⟨hagain, hgone⟩ :=
        makeDirectories_again htree' h.accepted h.ends hway' hnone hmade
      have herasable := h.of_none (hgrows.here_eq.trans hloses.here_eq) hgone
      have hsame : final.erased output = final := by
        rw [erased, herasable.has_eq (hgrows.isTree htree'),
          if_neg (by simp [hgone])]
      have hwhole :=
        sameIn_whole (hgrows.isTree htree') (hgrows.isTree htree') rfl
          fun _ => rfl
      rw [hgrows.here_eq, hloses.here_eq] at hwhole
      rw [if_neg (by simp [hjobs]), hsame, outcome, outcome]
      refine ⟨herasable, hgrows.isTree htree',
        hgrows.here_eq.trans hloses.here_eq, ?_⟩
      rw [hmade, hagain]
      exact ⟨.error _, hwhole⟩
  | ran hjobs hmade hchanges =>
      have hgrows := (makeDirectories_spec output (start.erased output)).1
      rw [hmade] at hgrows
      obtain ⟨herasable, remade, hremade, hsame⟩ :=
        herased.again htree' hmade hnone hchanges
      have hhere := hchanges.here_eq.trans (hgrows.here_eq.trans hloses.here_eq)
      rw [hloses.here_eq] at hsame
      rw [if_neg (by simp [hjobs]), outcome, outcome]
      refine ⟨herasable, hchanges.isTree, hhere, ?_⟩
      rw [hmade, hremade]
      exact ⟨.ok rfl, hsame⟩

end Store

/-! ## Runs -/

variable {σ : Type} {around : Surroundings σ} {place : HasStore σ}
  {registry : Registry} {dataset : Dataset} {jobs : List Job} {state other : σ}

private theorem outcome_lift {ε α : Type} (act : StateM σ α) (state : σ) :
    outcome (liftM act : ExceptT ε (StateM σ) α) state =
      (.ok (act state).1, (act state).2) := rfl

private theorem run_overwriting (h : around.IsOnStore place) (jobs : List Job)
    (trackPaths : Bool) {output : Path}
    (herasable : IsErasable (place.store state) output)
    (htree : IsTree (place.store state)) :
    ∃ cleared, place.store cleared = (place.store state).erased output ∧
      (Execution.run around jobs output true trackPaths).run state =
        (warnAndSend around jobs output trackPaths).run cleared := by
  have hask : (around.isThere output state).1 = (place.store state).has output ∧
      place.store (around.isThere output state).2 = place.store state :=
    h.run_isThere rfl
  suffices hclear : ∃ cleared,
      place.store cleared = (place.store state).erased output ∧
      outcome (clearOutput around output) state = (.ok (), cleared) by
    obtain ⟨cleared, hstore, hclear⟩ := hclear
    refine ⟨cleared, hstore, ?_⟩
    change outcome _ state = outcome _ cleared
    rw [run_eq, if_pos rfl, outcome_bind, hclear]
  unfold clearOutput erased
  rw [outcome_bind, outcome_lift]
  dsimp only
  rw [hask.1]
  cases hhas : (place.store state).has output with
  | false => exact ⟨_, by simpa using hask.2, rfl⟩
  | true =>
      rw [herasable.has_eq htree, Option.isSome_iff_ne_none] at hhas
      obtain ⟨removed, hdelete, -⟩ := herasable.loses_delete htree hhas
      simp only [if_true]
      rw [outcome_bind, outcome_lift]
      dsimp only
      rw [outcome_bind]
      generalize htold :
        (around.tell _ (around.isThere output state).2).2 = told
      have hsame : place.store told = place.store state := by
        rw [← htold, h.tell_keeps, hask.2]
      rcases hdeleted : outcome (around.delete output) told with ⟨result, after⟩
      have hrun := h.run_delete hdeleted
      rw [hsame, hdelete] at hrun
      obtain ⟨rfl, hstore⟩ := Prod.mk.inj hrun
      exact ⟨after, by rw [hdelete, ← hstore], rfl⟩

private theorem send_leaves (h : around.IsLocal place registry)
    (hwired : IsWired dataset jobs) (hne : dataset.output.text ≠ "")
    (htree : IsTree (place.store state)) :
    Leaves jobs dataset.output (place.store state)
      (outcome (send around jobs dataset.output) state).1
      (place.store (outcome (send around jobs dataset.output) state).2) := by
  unfold send
  split_ifs with hjobs
  · exact .idle hjobs
  · rw [outcome_bind]
    rcases hrun : outcome (around.makeDirectories dataset.output) state
      with ⟨result, made⟩
    have hmade := h.run_makeDirectories hrun
    obtain ⟨hgrows, hdirectory⟩ :=
      makeDirectories_spec dataset.output (place.store state)
    rw [hmade] at hgrows hdirectory
    cases result with
    | error error => exact .refused (by simpa using hjobs) hmade
    | ok done =>
        refine .ran (by simpa using hjobs) hmade ?_
        exact runFrom_changesBelow h hwired _ 0 (hgrows.isTree htree)
          ((hdirectory rfl).resolve_left hne)

private theorem warnAndSend_leaves (h : around.IsLocal place registry)
    (hwired : IsWired dataset jobs) (trackPaths : Bool)
    (hne : dataset.output.text ≠ "") (htree : IsTree (place.store state)) :
    Leaves jobs dataset.output (place.store state)
      (outcome (warnAndSend around jobs dataset.output trackPaths) state).1
      (place.store
        (outcome (warnAndSend around jobs dataset.output trackPaths)
          state).2) := by
  unfold warnAndSend
  split_ifs
  · rw [outcome_bind, outcome_lift]
    dsimp only
    have hsent := @send_leaves σ around place registry dataset jobs
    rw [← h.tell_keeps _ state] at htree ⊢
    exact hsent h hwired hne htree
  · exact send_leaves h hwired hne htree

section

variable (h : around.IsLocal place registry) (hwired : IsWired dataset jobs)
  (trackPaths : Bool) (htree : IsTree (place.store state))
  (herasable : IsErasable (place.store state) dataset.output)

include h hwired htree herasable

private theorem abreast_overwriting (htree' : IsTree (place.store other))
    (herasable' : IsErasable (place.store other) dataset.output)
    (hhere : (place.store other).here = (place.store state).here)
    (houtside : ∀ passed, ¬placeOf (place.store state).here dataset.output <+:
      passed →
      (place.store other).node? passed = (place.store state).node? passed) :
    Abreast state other
      (Execution.run around jobs dataset.output true trackPaths).run
      (Execution.run around jobs dataset.output true trackPaths).run
      (ComesAlike place (.whole (place.store state).here) jobs) := by
  obtain ⟨cleared, hstore, hrun⟩ :=
    run_overwriting h.toIsOnStore jobs trackPaths herasable htree
  obtain ⟨cleared', hstore', hrun'⟩ :=
    run_overwriting h.toIsOnStore jobs trackPaths herasable' htree'
  have hsame := herasable.sameIn_erased herasable' htree htree' hhere houtside
  rw [← hstore, ← hstore'] at hsame
  unfold Abreast
  rw [hrun, hrun']
  exact abreast_warnAndSend h
    (fun _ => hosts_whole hwired _) hwired.isLaidOut.last_of_publishes
    trackPaths (opensAlike (.inr (Scope.covers_whole _ _)) hsame)

private theorem abreast_again (hway : ∀ error,
      (outcome (Execution.run around jobs dataset.output true trackPaths)
        state).1 = .error error →
        CanBeMadeAgain (place.store state) dataset.output)
    (hran : place.store
      (outcome (Execution.run around jobs dataset.output true trackPaths)
        state).2 =
      place.store other) :
    Abreast state other
      (Execution.run around jobs dataset.output true trackPaths).run
      (Execution.run around jobs dataset.output true trackPaths).run
      (ComesAlike place (.whole (place.store state).here) jobs) := by
  obtain ⟨cleared, hstore, hrun⟩ :=
    run_overwriting h.toIsOnStore jobs trackPaths herasable htree
  have hleaves :=
    @warnAndSend_leaves σ around place registry dataset jobs cleared h hwired
      trackPaths
    herasable.accepted.ne_empty (hstore ▸ IsErasable.isTree_erased htree)
  rw [show outcome
    (Execution.run around jobs dataset.output true trackPaths) state =
    outcome (warnAndSend around jobs dataset.output trackPaths) cleared
      from hrun] at hran hway
  rw [hran, hstore] at hleaves
  obtain ⟨hagain, htree', -, hopens⟩ := hleaves.opensAlike herasable htree hway
  obtain ⟨cleared', hstore', hrun'⟩ :=
    run_overwriting h.toIsOnStore jobs trackPaths hagain htree'
  rw [← hstore, ← hstore'] at hopens
  unfold Abreast
  rw [hrun, hrun']
  exact abreast_warnAndSend h
    (fun _ => hosts_whole hwired _) hwired.isLaidOut.last_of_publishes
    trackPaths hopens

end

/-! ## Chains -/

/-- Two manifests of a job that list the same and differ in their times. -/
def IsRedated (here : Place) (dataset : Dataset) (passed : Place)
    (content content' : Content) : Prop :=
  ∃ ordinal, passed = placeOf here (dataset.jobLocation ordinal) ++
    [manifestFile] ∧ ∃ files time time',
    content = .text (Manifest.content files time).prettyText ∧
      content' = .text (Manifest.content files time').prettyText

/-- What comes of two executions is the same, apart from ids and times. -/
structure ExecutesAlike (place : HasStore σ) (dataset : Dataset)
    (ran ran' : Except ChainError ChainOutcome × σ) : Prop where
  outcomes :
      Matches (fun outcome outcome' => outcome'.unstamped = outcome.unstamped)
        ran.1 ran'.1
  here_eq : (place.store ran'.2).here = (place.store ran.2).here
  nodes : ∀ passed, (place.store ran'.2).node? passed =
    (place.store ran.2).node? passed ∨
    ∃ content content', (place.store ran.2).node? passed =
      some (.file content) ∧
      (place.store ran'.2).node? passed = some (.file content') ∧
      IsRedated (place.store ran.2).here dataset passed content content'

private theorem ComesAlike.executesAlike (hwired : IsWired dataset jobs)
    {here : Place} {result result' : Except IoError ChainOutcome}
    {after after' : σ}
    (h : ComesAlike place (.whole here) jobs result after result' after') :
    ExecutesAlike place dataset (result.mapError .io,
      after) (result'.mapError .io, after') := by
  obtain ⟨houtcomes, hstores⟩ := h
  refine ⟨houtcomes.mapError _, hstores.here_eq'.trans hstores.here_eq.symm,
    fun passed => (hstores.node passed trivial).imp id ?_⟩
  rintro ⟨content, content', hfile, hfile', job, hjob, ⟨-, hplace⟩, hcontents⟩
  obtain ⟨ordinal, hlocation⟩ := hwired.isLaidOut.exists_location hjob
  refine ⟨content, content', hfile, hfile', ordinal, ?_, hcontents⟩
  rw [hplace, Job.place, hlocation]
  exact congrArg (fun here => placeOf here _ ++ _) hstores.here_eq.symm

namespace Chain

variable {chain : Chain} {entries : List (Plan.Entry × Stage)} {given : String}

private theorem compile_given
    (hgrown : Plan.enterAll {} entries = .ok chain.plan)
    (hgiven : chain.options.get? Options.package = some given)
    (home? : Option String) (dataset : Dataset) :
    ∃ log jobs, IsWired dataset jobs ∧
      ∀ store, chain.compile store home? dataset = (log, .ok jobs) := by
  have hlocate : ∀ store, Package.locate store home? chain.options =
      ([⟨.info, "usando el paquete provisto: " ++ given⟩],
        .ok ⟨given⟩) := fun store => by
    rw [Package.locate, hgiven]
  have hsame : ∀ store, chain.compile store home? dataset = chain.compile
      {} home? dataset :=
    fun store => by rw [compile, compile, hlocate, hlocate]
  obtain ⟨jobs, hjobs⟩ : ∃ jobs, (chain.compile {} home? dataset).2 =
      .ok jobs := by
    by_cases hblocks : chain.plan.blocks = []
    · exact ⟨[], by simp [compile, hblocks]⟩
    · exact ⟨_, by
        rw [(isSound_of_enterAll hgrown).compile_eq hblocks, hlocate]⟩
  exact ⟨_, jobs, isWired_of_compile hgrown hjobs,
    fun store => by rw [hsame, ← hjobs]⟩

private theorem execute_given (hstore : around.IsOnStore place)
    {home? : Option String} {log : List LogLine}
    (hcompile : ∀ store, chain.compile store home? dataset = (log, .ok jobs))
    (state : σ) : ∃ told, place.store told = place.store state ∧
      (chain.execute around place home? dataset true).run state =
        (let ran :=
          (Execution.run around jobs dataset.output true chain.trackPaths).run
            told
         (ran.1.mapError ChainError.io, ran.2)) := by
  obtain ⟨events, -, -, htold⟩ := recorded_tellEach hstore log state []
  refine ⟨(tellEach around log state).2, htold, ?_⟩
  rw [execute_eq, hcompile]
  rfl

end Chain

/-- Executing a chain with overwrite comes to the same whatever has been at its
output, and executing it again comes to the same once more, where the output can
be erased. -/
theorem execute_forgets_output (h : around.IsLocal place registry)
    {chain : Chain} {entries : List (Plan.Entry × Stage)}
    (hgrown : Plan.enterAll {} entries = .ok chain.plan)
    {given : String}
    (hgiven : chain.options.get? Options.package = some given)
    (home? : Option String)
    {dataset : Dataset} {state : σ} (htree : IsTree (place.store state))
    (herasable : IsErasable (place.store state) dataset.output) :
    let ran := (chain.execute around place home? dataset true).run
    (∀ other, IsTree (place.store other) →
      IsErasable (place.store other) dataset.output →
      (place.store other).here = (place.store state).here →
      (∀ passed, ¬placeOf (place.store state).here dataset.output <+: passed →
        (place.store other).node? passed = (place.store state).node? passed) →
      ExecutesAlike place dataset (ran state) (ran other)) ∧
    ((∀ error, (ran state).1 = .error error →
      CanBeMadeAgain (place.store state) dataset.output) →
      ExecutesAlike place dataset (ran state) (ran (ran state).2)) := by
  intro ran
  obtain ⟨log, jobs, hwired, hcompile⟩ :=
    Chain.compile_given hgrown hgiven home? dataset
  obtain ⟨told, htold, hran⟩ := Chain.execute_given h.toIsOnStore hcompile state
  refine ⟨fun other htree' herasable' hhere houtside => ?_, fun hway => ?_⟩
  · obtain ⟨told', htold', hran'⟩ :=
      Chain.execute_given h.toIsOnStore hcompile other
    rw [← htold] at htree herasable hhere houtside
    rw [← htold'] at htree' herasable' hhere houtside
    have halike :=
      abreast_overwriting h hwired chain.trackPaths htree herasable htree'
        herasable' hhere
      houtside
    change ExecutesAlike place dataset
      ((chain.execute around place home? dataset true).run state)
      ((chain.execute around place home? dataset true).run other)
    rw [hran, hran']
    exact halike.executesAlike hwired
  · obtain ⟨told', htold', hran'⟩ :=
      Chain.execute_given h.toIsOnStore hcompile (ran state).2
    rw [← htold] at htree herasable hway
    have halike := abreast_again h hwired chain.trackPaths htree herasable
      (fun error herror =>
      hway (.io error)
        (by
          rw [show ran state = _ from hran];
            exact congrArg (Except.mapError _) herror))
      ((congrArg (fun ran => place.store ran.2) hran).symm.trans htold'.symm)
    change ExecutesAlike place dataset
      ((chain.execute around place home? dataset true).run state)
      ((chain.execute around place home? dataset true).run (ran state).2)
    rw [hran, hran']
    exact halike.executesAlike hwired

/-! ### A count with an old graph at its output -/

def staleStore : Store :=
  ((countedStore.put ["out"] .directory).put ["out", "job-0"] .directory).put
    ["out", "job-0", "graph-m-00009.jsonl"] (.file (.text countedText))

private theorem isTree_staleStore : IsTree staleStore := by
  have houtput := @isTree_put _ [] "out" .directory isTree_countedStore rfl
    (by decide) (by decide)
  have hjob := @isTree_put _ ["out"] "job-0" .directory houtput (by decide)
    (by decide) (by decide)
  exact @isTree_put _ ["out", "job-0"] "graph-m-00009.jsonl" _ hjob (by decide)
    (by decide) (by decide)

private theorem node?_staleStore {passed : Place}
    (hpassed : ¬["out"] <+: passed) :
    staleStore.node? passed = countedStore.node? passed := by
  have hne : ∀ rest : Place, passed ≠ "out" :: rest := by
    rintro rest rfl
    exact hpassed (List.prefix_append ["out"] rest)
  rw [staleStore, node?_put _ _ _ _ (by simp), node?_put _ _ _ _ (by simp),
    node?_put _ _ _ _ (by simp), if_neg (hne _), if_neg (hne _), if_neg (hne _)]

def countingRun (store : Store) : Except ChainError ChainOutcome × Store :=
  (countingChain.execute ordinary itself none countingDataset true).run store

theorem execute_forgets_output_stale :
    ((countingRun countedStore).1.map fun outcome =>
      outcome.runs.map JobRun.status).toOption =
        some [.succeeded, .failed] ∧
      ExecutesAlike itself countingDataset (countingRun countedStore)
        (countingRun staleStore) ∧
      ExecutesAlike itself countingDataset (countingRun countedStore)
        (countingRun (countingRun countedStore).2) := by
  have hgrown : Plan.enterAll {} [(.ofMapReduce, countingStage),
      (.ofMap, Plan.sampleMap)] =
      .ok countingChain.plan := by rfl
  have hgiven : countingChain.options.get? Options.package =
      some "stages.jar" := by rfl
  have herasable : ∀ store, IsTree store →
      IsErasable store countingDataset.output :=
    fun store htree => isErasable_of_no_parent (by decide) (by decide) htree
      ⟨by decide, by decide, by decide⟩ fun hslashed =>
        absurd hslashed (by decide)
  obtain ⟨hforgets, hagain⟩ :=
    execute_forgets_output isLocal_ordinary hgrown hgiven none
      (show IsTree (itself.store countedStore) from isTree_countedStore)
    (herasable _ isTree_countedStore)
  exact ⟨by
    decide +kernel,
      hforgets staleStore isTree_staleStore (herasable _ isTree_staleStore) rfl
    fun _ => node?_staleStore, hagain fun _ _ => .inl (by decide)⟩

end JobChain
