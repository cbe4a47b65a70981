import JobChain.Proofs.Engine.Commits

/-!
# Manifests

What a manifest lists is what can be found in the directory of a job by the
names of its outputs. So it names all files that the job has committed, and no
others but those that were there before.
-/

namespace JobChain

open Engine Store

/-! ## Leaving a manifest -/

private theorem ask_change {α : Type} (question : Store → Except StoreError α)
    (act : α → Store → Store → Except StoreError Store) (store : Store) :
    ((do change (act (← ask question) (← getThe Store)) : StoreM Unit)
      store).2 = match question store with
      | .error _ => store
      | .ok answer => (change (act answer store) store).2 := by
  cases hanswer : question store with
  | error error =>
      simp only [ask, Bind.bind, ExceptT.bind, ExceptT.mk, ExceptT.bindCont,
        StateT.bind, hanswer, Except.mapError]
      rfl
  | ok answer =>
      simp [ask, Bind.bind, ExceptT.bind, ExceptT.mk, ExceptT.bindCont,
        StateT.bind, hanswer, Except.mapError, getThe, MonadStateOf.get, liftM,
        monadLift, MonadLift.monadLift,
        ExceptT.lift, StateT.get, Functor.map, StateT.map, Pure.pure]

theorem leave_eq (location : Path) (time : Timestamp) (store : Store) :
    (Manifest.leave location time store).2 =
      match store.names location with
      | .error _ => store
      | .ok names =>
          (change (fun other => other.write (location.child manifestFile)
          (.text
            (Manifest.content (Manifest.published store location names)
              time).prettyText))
          store).2 := by
  have hleave :=
    ask_change (fun store => store.names location) (fun names found other =>
    other.write (location.child manifestFile)
      (.text
        (Manifest.content (Manifest.published found location names)
          time).prettyText)) store
  rw [Manifest.leave, hleave]
  cases store.names location <;> rfl

theorem leave_refills (location : Path) (time : Timestamp) (store : Store) :
    Refills store (Manifest.leave location time store).2
      fun other => other = placeOf store.here location ++ [manifestFile] := by
  have hplace : placeOf store.here (location.child manifestFile) =
      placeOf store.here location ++ [manifestFile] :=
    placeOf_child location (by decide) (by decide) (by decide) store.here
  rw [leave_eq, ← hplace]
  cases store.names location with
  | error error => exact .refl store _
  | ok names => exact change_write_refills _ _ store

/-! ### In an open directory -/

section

variable {store : Store} {location : Path}
  (hopen : IsOpen store (startOf store.here location) location.steps)

include hopen

private theorem Store.write_child {name : String} (hname : IsName name)
    (haccepted : IsAccepted (location.child name))
    (hfree : store.node? (placeOf store.here location ++ [name]) ≠
      some .directory)
    (content : Content) : store.write (location.child name) content =
      .ok (store.put (placeOf store.here location ++ [name])
        (.file content)) := by
  obtain ⟨before, hbefore, hpieces⟩ := location.pieces_child
  rw [← hbefore, startOf, ← Path.isAbsolute_child location hname.no_slash]
    at hopen
  have henter : store.enterRoute (location.child name) =
      .ok (placeOf store.here location) := by
    rw [enterRoute_eq_ok_iff,
      routeOf_of_name hname (hpieces name hname.no_slash)]
    refine ⟨haccepted, hopen, ?_⟩
    rw [placeOf, hbefore, startOf, startOf,
      Path.isAbsolute_child location hname.no_slash]
  have hdescend : descend (placeOf store.here location) name =
      .ok (placeOf store.here location ++ [name]) := by
    rw [descend_eq_ok_iff]
    simp [Path.isStep_name hname, hname.short, stepFrom_name hname]
  simp only [write, henter, routeOf_of_name hname (hpieces name hname.no_slash)]
  simp [Bind.bind, Except.bind, hdescend, isDots_of_isName hname, hfree]

private theorem fileAt?_leave (hne : location.text ≠ "")
    (haccepted : IsAccepted (location.child manifestFile))
    (hfree : store.node? (placeOf store.here location ++ [manifestFile]) ≠
      some .directory)
    (time : Timestamp) :
    (Manifest.leave location time store).2.fileAt?
      (placeOf store.here location ++ [manifestFile]) =
      some (.text (Manifest.content (Manifest.published store location
        (store.namesIn (placeOf store.here location))) time).prettyText) := by
  have hdirectory : store.isDirectory location = true :=
    isDirectory_iff.2 ⟨isAccepted_of_child (by decide) hne haccepted, hopen⟩
  have hnames : store.names location =
      .ok (store.namesIn (placeOf store.here location)) := by
    rw [names, find_of_isDirectory hdirectory]
    rfl
  have hname : IsName manifestFile :=
    ⟨by decide, by decide, by decide, by decide, by decide, by decide⟩
  rw [leave_eq, hnames]
  simp only [change, write_child hopen hname haccepted hfree]
  rw [fileAt?_eq_some, node?_put _ _ _ _ (by simp), if_pos rfl]

end

/-! ## What a manifest lists -/

def isPrimaryName (name : String) : Bool := beginsWith mainOutput name ||
    beginsWith graphOutput name

private theorem isPrimaryOutput_child (base : Path) {name : String}
    (hname : IsName name) :
    isPrimaryOutput (base.child name) = isPrimaryName name := by
  obtain ⟨outer, houter⟩ := base.components_child
  have hfile : (base.child name).fileName? = some name := by
    simp [Path.fileName?, houter name hname]
  rw [isPrimaryOutput, hfile]
  rfl

private theorem Engine.SharesFormat.isPrimaryName_iff {job : Job}
    (h : SharesFormat job) {output : String}
    (hknown : (formatFor? job output).isSome = true) (side : Side) (task : Nat)
    (format : RecordFormat) :
    isPrimaryName (outputName output side task format) = true ↔
    output ∈ committedOutputs := by
  obtain ⟨rest, hrest⟩ := exists_toList_outputName output side task format
  unfold isPrimaryName beginsWith
  rw [hrest]
  rcases h.mem_of_formatFor? hknown with rfl | houtput
  · exact iff_of_false Bool.false_ne_true (by decide)
  · refine iff_of_true ?_ houtput
    rcases List.mem_pair.1 houtput with rfl | rfl <;> rfl

private theorem mem_published_iff {store : Store} {location : Path}
    (htree : IsTree store)
    (hopen : IsOpen store (startOf store.here location) location.steps)
    {name : String} :
    name ∈ Manifest.published store location
      (store.namesIn (placeOf store.here location)) ↔
      IsName name ∧ isPrimaryName name = true ∧
      IsAccepted (location.child name) ∧
        ∃ content, store.fileAt? (placeOf store.here location ++ [name]) =
          some content := by
  rw [Manifest.published, List.mem_filter, Bool.and_eq_true]
  constructor
  · rintro ⟨hmem, hfile, hprimary⟩
    have hname := htree.isName hmem
    rw [isPrimaryOutput_child _ hname] at hprimary
    exact ⟨hname, hprimary, (isFile_child_iff hopen hname).1 hfile⟩
  · rintro ⟨hname, hprimary, haccepted, content, hfile⟩
    refine ⟨?_, (isFile_child_iff hopen hname).2 ⟨haccepted, content,
      hfile⟩, ?_⟩
    · rw [mem_namesIn, fileAt?_eq_some.1 hfile]
      rfl
    · rwa [isPrimaryOutput_child _ hname]

/-- A list in order of all that has been committed, with nothing else but what
was left over. -/
structure Lists (committed : List String) (leftOver : String → Prop)
    (files : List String) : Prop where
  sorted : files.Pairwise fun name name' => compare name name' = .lt
  complete : ∀ name ∈ committed, name ∈ files
  sound : ∀ name ∈ files, name ∈ committed ∨ leftOver name

theorem Lists.mono {committed files : List String}
    {leftOver leftOver' : String → Prop} (h : Lists committed leftOver files)
    (himp : ∀ name, leftOver name → leftOver' name) :
    Lists committed leftOver' files :=
  ⟨h.sorted, h.complete,
    fun name hname => (h.sound name hname).imp id (himp name)⟩

theorem Lists.mem_iff {committed files : List String} {leftOver : String → Prop}
    (h : Lists committed leftOver files) (hnone : ∀ name, ¬leftOver name)
    {name : String} : name ∈ files ↔ name ∈ committed :=
  ⟨fun hname => (h.sound name hname).resolve_right (hnone name),
    h.complete name⟩

namespace Engine

variable {registry : Registry} {job : Job} {inputs : List (List Pair)}

def committedNames (registry : Registry) (job : Job)
    (inputs : List (List Pair)) : List String :=
  (committedFiles registry job inputs).map fun file =>
    outputName file.1 file.2.1 file.2.2 job.output.format

private theorem mem_committedNames {name : String} :
    name ∈ committedNames registry job inputs ↔
    ∃ output ∈ committedOutputs, ∃ side task,
      tableOf registry job inputs side task output ≠ [] ∧
      outputName output side task job.output.format = name := by
  rw [committedNames, List.mem_map]
  constructor
  · rintro ⟨⟨output, side, task⟩, hfile, hname⟩
    obtain ⟨houtput, hleft⟩ := mem_committedFiles.1 hfile
    exact ⟨output, houtput, side, task, hleft, hname⟩
  · rintro ⟨output, houtput, side, task, hleft, hname⟩
    exact ⟨(output, side, task), mem_committedFiles.2 ⟨houtput, hleft⟩, hname⟩

/-- What a job that has succeeded publishes is what it has committed, beside
what was there before. -/
theorem Completes.lists {before made ran after : Store}
    (h : Completes registry job inputs before made ran after)
    (hformat : SharesFormat job) (htree : IsTree before) :
    Lists (committedNames registry job inputs)
      (fun name => isPrimaryName name = true ∧
        ∃ content, before.fileAt? (homeOf job before.here ++ [name]) =
          some content)
      (Manifest.published after job.output.location
        (after.namesIn (placeOf after.here job.output.location))) := by
  have htree' := h.isTree htree
  have hopen := isOpen_of_read (by decide : IsName successMark) h.mark.read_eq
  have hplace : placeOf after.here job.output.location =
      homeOf job before.here := by
    rw [h.here_eq, homeOf]
  refine ⟨(sorted_namesIn after _).filter _, fun name hname => ?_,
    fun name hname => ?_⟩
  · obtain ⟨output, houtput, side, task, hleft, rfl⟩ :=
      mem_committedNames.1 hname
    obtain ⟨format, hknown, hname, haccepted⟩ :=
      h.finishes.stands.known side task output hleft
    obtain rfl : format = job.output.format :=
      Option.some.inj (hknown.symm.trans (hformat.formatFor?_committed houtput))
    have hprimary := (hformat.isPrimaryName_iff (by simp [hknown]) side task
      job.output.format).2 houtput
    have hfile := h.file (.file side task output _ hleft hknown)
    rw [outputPlace, ← hplace] at hfile
    exact (mem_published_iff htree' hopen).2 ⟨hname, hprimary, haccepted,
      _, hfile⟩
  · obtain ⟨-, hprimary, -, content, hfile⟩ :=
      (mem_published_iff htree' hopen).1 hname
    rw [hplace] at hfile
    generalize hat : homeOf job before.here ++ [name] = place at hfile
    rcases h.of_fileAt? hfile with hholds | ⟨hmark, -⟩ | hbefore
    · obtain ⟨side, task, output, format, hleft, hknown⟩ := hholds
      obtain rfl := List.singleton_inj.1 (List.append_cancel_left hat)
      have houtput :=
        (hformat.isPrimaryName_iff (by simp [hknown]) side task format).1
          hprimary
      obtain rfl : format = job.output.format :=
        Option.some.inj
          (hknown.symm.trans (hformat.formatFor?_committed houtput))
      exact .inl (mem_committedNames.2 ⟨output, houtput, side, task,
        hleft, rfl⟩)
    · obtain rfl :=
        List.singleton_inj.1 (List.append_cancel_left (hat.trans hmark))
      exact absurd hprimary (by decide)
    · exact .inr ⟨hprimary, content, hat ▸ hbefore⟩

section

variable {before made ran after : Store}
  (h : Completes registry job inputs before made ran after) (time : Timestamp)

include h

theorem Completes.file_leave {place : Place} {content : Content}
    (hholds : (tableOf registry job inputs).Holds job before.here place
      content) :
    (Manifest.leave job.output.location time after).2.fileAt? place =
      some content := by
  rw [← h.file hholds]
  refine fileAt?_congr ((leave_refills job.output.location time after).kept _
    fun hplace => ?_)
  obtain ⟨side, task, output, format, -, -⟩ := hholds
  rw [h.here_eq] at hplace
  exact outputName_ne (by decide) output side task format
    (List.singleton_inj.1 (List.append_cancel_left hplace))

theorem Completes.exists_manifest (hformat : SharesFormat job)
    (htree : IsTree before) (hne : job.output.location.text ≠ "")
    (haccepted : IsAccepted (job.output.location.child manifestFile))
    (hfree : after.node? (homeOf job before.here ++ [manifestFile]) ≠
      some .directory) :
    ∃ files, (Manifest.leave job.output.location time after).2.fileAt?
        (homeOf job before.here ++ [manifestFile]) =
          some (.text (Manifest.content files time).prettyText) ∧
      Lists (committedNames registry job inputs)
        (fun name => isPrimaryName name = true ∧
        ∃ content, before.fileAt? (homeOf job before.here ++ [name]) =
          some content) files := by
  have hopen := isOpen_of_read (by decide : IsName successMark) h.mark.read_eq
  have hplace : placeOf after.here job.output.location =
      homeOf job before.here := by
    rw [h.here_eq, homeOf]
  have hmanifest := fileAt?_leave hopen hne haccepted (hplace.symm ▸ hfree) time
  rw [hplace] at hmanifest
  exact ⟨_, hmanifest, hplace ▸ h.lists hformat htree⟩

end

end Engine

end JobChain
