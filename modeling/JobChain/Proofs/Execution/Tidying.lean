import JobChain.Proofs.Execution.Files

/-!
# Tidying behind a job

What is taken behind a job are the names in its directory that begin with one of
some fronts, front by front and in order. They are found on a path that leads
through the output, and taken from there one by one.
-/

namespace JobChain

open Execution Store

variable {σ : Type}

/-! ## What is found -/

namespace Job

def reached (fronts : List String) (job : Job) (store : Store) : List Place :=
  if isSearchable job.output.location then
    fronts.flatMap fun front =>
      ((store.namesIn (job.place store.here)).filter (beginsWith front)).map
        fun name => job.place store.here ++ [name]
  else []

private theorem reached_cons (front : String) (rest : List String) (job : Job)
    (store : Store) :
    job.reached (front :: rest) store = job.reached [front] store ++
    job.reached rest store := by
  unfold reached
  split_ifs <;> simp

theorem mem_reached_iff {fronts : List String} {job : Job} {store : Store}
    {target : Place} : target ∈ job.reached fronts store ↔
    isSearchable job.output.location = true ∧
      ∃ front ∈ fronts, ∃ name ∈ store.namesIn (job.place store.here),
        beginsWith front name = true ∧
        job.place store.here ++ [name] = target := by
  unfold reached
  split_ifs with hsearch <;> simp [hsearch, and_assoc]

private theorem passesOn_of_mem_reached {fronts : List String} {job : Job}
    {store : Store} {target other : Place}
    (hfronts : ∀ front ∈ fronts, front ∈ Job.fronts)
    (htarget : target ∈ job.reached fronts store) (hbelow : target <+: other) :
    job.passesOn store.here other := by
  obtain ⟨-, front, hfront, name, -, hbegins, rfl⟩ := mem_reached_iff.1 htarget
  exact ⟨front, hfronts front hfront, name, hbegins, hbelow⟩

theorem reached_congr {fronts : List String} {job : Job} {before after : Store}
    (hhere : after.here = before.here)
    (h : ∀ front ∈ fronts, ∀ name, beginsWith front name = true →
      after.node? (job.place before.here ++ [name]) =
        before.node? (job.place before.here ++ [name])) :
    job.reached fronts after = job.reached fronts before := by
  unfold reached
  rw [hhere]
  split_ifs
  · exact List.flatMap_congr fun front hfront => by
      rw [filter_namesIn_congr (h front hfront)]
  · rfl

theorem isFront_of_mem_fronts {front : String}
    (h : front ∈ fronts) : IsFront front := by
  have hall : ∀ front ∈ fronts,
      front.toList.all (fun c => !Glob.isSpecial c) = true ∧
      '/' ∉ front.toList ∧ front.toList.head? ≠ some '.' := by decide
  obtain ⟨hplain, hslash, hdot⟩ := hall front h
  exact ⟨hplain, hslash, hdot⟩

private theorem front_eq_of_begins {front front' name : String}
    (h : front ∈ fronts) (h' : front' ∈ fronts)
    (hbegins : beginsWith front name = true)
    (hbegins' : beginsWith front' name = true) : front = front' := by
  have hall : ∀ front ∈ fronts, ∀ front' ∈ fronts,
      front.toList.head? = front'.toList.head? → front = front' := by decide
  have hne : ∀ front ∈ fronts, front.toList ≠ [] := by decide
  have hhead : ∀ {front : String}, front ∈ fronts →
      beginsWith front name = true →
      front.toList.head? = name.toList.head? := by
    intro front hmem hbegins
    obtain ⟨rest, hrest⟩ := List.isPrefixOf_iff_prefix.1 hbegins
    rw [← hrest, List.head?_append_of_ne_nil _ (hne front hmem)]
  exact hall front h front' h'
    ((hhead h hbegins).trans (hhead h' hbegins').symm)

end Job

/-! ## Deleting what is found -/

def IsGranted (events : List (Event σ)) : Prop :=
  ∀ event ∈ events, ∀ path error, event.deed ≠ .deleted path (.error error)

theorem isGranted_cons {event : Event σ} {events : List (Event σ)} :
    IsGranted (event :: events) ↔
      (∀ path error, event.deed ≠ .deleted path (.error error)) ∧
      IsGranted events := by
  simp [IsGranted]

theorem isGranted_append {events events' : List (Event σ)} :
    IsGranted (events ++ events') ↔ IsGranted events ∧ IsGranted events' := by
  simp [IsGranted, or_imp, forall_and]

/-- Paths that go one way to a directory, and then to a name in it. -/
def LeadTo (here start : Place) (way : List String)
    (paths : List Path) : Prop :=
  ∀ path ∈ paths, startOf here path = start ∧
    ∃ before name, IsName name ∧ path.pieces = before ++ [name] ∧
      before.filter Path.isStep = way

variable {around : Surroundings σ} {place : HasStore σ}

private theorem recorded_deleteEach_files (h : around.IsOnStore place)
    {start : Place} {way : List String} {paths : List Path} {state : σ}
    (hlead : LeadTo (place.store state).here start way paths)
    (htree : IsTree (place.store state)) :
    Recorded state (deleteEach around.recorded paths) (deleteEach around paths)
      fun _ after events =>
        Deletes (IsGranted events) start way
          (paths.map (placeOf (place.store state).here)) (place.store state)
          (place.store after) := by
  induction paths generalizing state with
  | nil => exact .pure (.refl _)
  | cons path rest ih =>
      simp only [deleteEach, Surroundings.run_recorded_delete,
        Surroundings.recorded_tell]
      refine .record_bind fun result between hdelete => ?_
      obtain ⟨hstart, before, name, hname, hpieces, rfl⟩ :=
        hlead path List.mem_cons_self
      have hfirst := deletes_of_name htree hname hpieces (h.run_delete hdelete)
      rw [hstart] at hfirst
      rcases result with error | there
      all_goals
        refine .record_bind fun _ last htold => ?_
        have hlast := h.run_tell htold
        have hhere : (place.store last).here = (place.store state).here := by
          rw [hlast, hfirst.shrinks.here_eq]
        refine (ih ?_ (hlast ▸ hfirst.shrinks.isTree htree)).mono
          fun _ final events hrest => ?_
        · rw [hhere]
          exact fun other hother => hlead other (.tail _ hother)
        · rw [hhere, hlast] at hrest
          refine (hfirst.append hrest).mono fun hgranted => ?_
          obtain ⟨hdeed, hgranted⟩ := isGranted_cons.1 hgranted
          exact ⟨fun other heq => hdeed path other (congrArg _ heq),
            (isGranted_cons.1 hgranted).2⟩

/-! ## Front by front -/

/-- What has been done behind a job that has a directory in an output. -/
def Tidies (granted : Prop) (output : Path) (fronts : List String) (job : Job)
    (before after : Store) : Prop :=
  Deletes granted (startOf before.here output) output.steps
    (job.reached fronts before) before after

theorem Tidies.passesOn {granted : Prop} {output : Path} {fronts : List String}
    {job : Job} {before after : Store}
    (hfronts : ∀ front ∈ fronts, front ∈ Job.fronts)
    (h : Tidies granted output fronts job before after) :
    Shrinks before after (job.passesOn before.here) := by
  refine h.shrinks.mono ?_
  rintro other ⟨target, htarget, hbelow⟩
  exact Job.passesOn_of_mem_reached hfronts htarget hbelow

theorem Tidies.cons {granted granted' : Prop} {output : Path} {job : Job}
    {front : String} {rest : List String} {before between after : Store}
    (hnodup : (front :: rest).Nodup)
    (hfronts : ∀ other ∈ front :: rest, other ∈ Job.fronts)
    (h : Tidies granted output [front] job before between)
    (h' : Tidies granted' output rest job between after) :
    Tidies (granted ∧ granted') output (front :: rest) job before after := by
  have hhere := h.shrinks.here_eq
  have hreached : job.reached rest between = job.reached rest before := by
    refine Job.reached_congr hhere fun other hother name hbegins =>
      h.shrinks.kept _ ?_
    rintro ⟨target, htarget, hbelow⟩
    obtain ⟨-, front', hfront', name', -, hbegins', rfl⟩ :=
      Job.mem_reached_iff.1 htarget
    obtain rfl := List.mem_singleton.1 hfront'
    have hname : name' = name := by
      have heq := hbelow.eq_of_length (by simp)
      simpa using heq
    have heq := Job.front_eq_of_begins (hfronts _ List.mem_cons_self)
      (hfronts other (.tail _ hother)) (hname ▸ hbegins') hbegins
    exact (List.nodup_cons.1 hnodup).1 (heq ▸ hother)
  unfold Tidies at h' ⊢
  rw [hhere, hreached] at h'
  rw [Job.reached_cons]
  exact Deletes.append h h'

/-- What is taken of a job's data, as long as no deletion is refused: of what a
search finds behind it all, until the way there has been closed. -/
def Job.IsTaken (output : Path) (job : Job) (store : Store)
    (other : Place) : Prop :=
  IsOpen store (startOf store.here output) output.steps ∧
    TakesAlong (walkFrom (startOf store.here output) output.steps)
      (job.reached Job.fronts store) other

theorem Job.isTaken_of_clear {output : Path} {job : Job} {store : Store}
    {other : Place} (htree : IsTree store)
    (hsearch : isSearchable job.output.location = true)
    (hopen : IsOpen store (startOf store.here output) output.steps)
    (hclear : ∀ passed ∈ walkFrom (startOf store.here output) output.steps,
      ¬job.passesOn store.here passed)
    (hpasses : job.passesOn store.here other)
    (hother : store.node? other ≠ none) : job.IsTaken output store other := by
  obtain ⟨front, hfront, name, hbegins, hbelow⟩ := hpasses
  have hname : name ∈ store.namesIn (job.place store.here) := by
    rw [mem_namesIn, Option.isSome_iff_ne_none]
    by_cases heq : job.place store.here ++ [name] = other
    · rwa [heq]
    · simp [htree.directory_around hbelow heq hother]
  refine ⟨hopen,
    takesAlong_of_clear (fun target htarget passed hpassed hbelow' => ?_)
      (Job.mem_reached_iff.2 ⟨hsearch, front, hfront, name, hname, hbegins,
        rfl⟩) hbelow⟩
  exact hclear passed hpassed (Job.passesOn_of_mem_reached
    (fun _ => id) htarget hbelow')

section Jobs

variable {dataset : Dataset} {index : Nat} {job : Job} {store : Store}
  {front : String} (hlocation : job.output.location = dataset.jobLocation index)
  (hnul : '\x00' ∉ job.output.location.text.toList) (htree : IsTree store)

include hlocation

private theorem isOpen_location_iff :
    IsOpen store (startOf store.here job.output.location)
      job.output.location.steps ↔
      IsOpen store (startOf store.here dataset.output)
        (dataset.output.steps ++ [Dataset.jobDirectory index]) := by
  rw [hlocation, dataset.startOf_jobLocation, dataset.steps_jobLocation]

theorem place_eq_placeFrom (here : Place) :
    job.place here = placeFrom (startOf here dataset.output)
      (dataset.output.steps ++ [Dataset.jobDirectory index]) := by
  rw [Job.place, placeOf, hlocation, dataset.startOf_jobLocation,
    dataset.steps_jobLocation]

include hnul htree

private theorem leadTo_child (hsearch : isSearchable job.output.location = true)
    {names : List String}
    (hnames : ∀ name ∈ names, name ∈ store.namesIn (job.place store.here)) :
    LeadTo store.here (startOf store.here dataset.output)
      (dataset.output.steps ++ [Dataset.jobDirectory index])
      (names.map (searchPath job.output.location).child) ∧
      (names.map (searchPath job.output.location).child).map
        (placeOf store.here) = names.map fun name => job.place store.here ++
        [name] := by
  have hastray : goesAstray job.output.location = false := by
    rw [isSearchable, Bool.and_eq_true] at hsearch
    simpa using hsearch.1
  have hstands := stands_searchPath hnul hastray
  have hisName : ∀ name ∈ names, IsName name :=
    fun name hname => htree.isName (hnames name hname)
  obtain ⟨before, hbefore, hpieces⟩ :=
    (searchPath job.output.location).pieces_child
  have hstart : ∀ name ∈ names,
      startOf store.here ((searchPath job.output.location).child name) =
      startOf store.here dataset.output := by
    intro name hname
    rw [startOf, Path.isAbsolute_child _ (hisName name hname).no_slash,
      hstands.isAbsolute_eq, hlocation, dataset.isAbsolute_jobLocation, startOf]
  rw [hstands.steps_eq, hlocation, dataset.steps_jobLocation] at hbefore
  constructor
  · intro path hpath
    obtain ⟨name, hname, rfl⟩ := List.mem_map.1 hpath
    exact ⟨hstart name hname, before, name, hisName name hname,
      hpieces name (hisName name hname).no_slash, hbefore⟩
  · rw [List.map_map]
    refine List.map_congr_left fun name hname => ?_
    have hname' := hisName name hname
    rw [Function.comp_apply,
      placeOf_of_name hname' (hpieces name hname'.no_slash), hbefore,
      hstart name hname, place_eq_placeFrom hlocation]

omit hnul in
private theorem reached_eq_nil
    (hopen : IsOpen store (startOf store.here dataset.output)
      dataset.output.steps)
    (hclosed : isSearchable job.output.location = true →
      ¬IsOpen store (startOf store.here job.output.location)
        job.output.location.steps)
    (fronts : List String) : job.reached fronts store = [] := by
  rw [List.eq_nil_iff_forall_not_mem]
  intro target htarget
  obtain ⟨hsearch, -, -, name, hname, -, -⟩ := Job.mem_reached_iff.1 htarget
  refine hclosed hsearch
    ((isOpen_location_iff hlocation).2 (isOpen_concat_iff.2 ⟨hopen, ?_⟩))
  rw [mem_namesIn, Option.isSome_iff_ne_none] at hname
  have hdirectory := htree.around _ _ hname
  have hplace := place_eq_placeFrom hlocation store.here
  rw [placeFrom_append] at hplace
  refine ⟨(htree.names _ hname (Dataset.jobDirectory index) ?_).short, ?_⟩
  · rw [Job.place, hlocation, dataset.placeOf_jobLocation]
    simp
  · rw [hplace] at hdirectory
    exact hdirectory

private theorem recorded_deleteFront_files (h : around.IsOnStore place)
    (hfront : front ∈ Job.fronts) {state : σ}
    (hstate : place.store state = store) {paths : List Path}
    (hlisting : store.listing
      (Glob.patternIn job.output.location (front ++ "*")) = .ok paths) :
    Recorded state (deleteEach around.recorded paths) (deleteEach around paths)
      fun _ after events =>
        Tidies (IsGranted events) dataset.output [front] job store
          (place.store after) := by
  have hsteps : job.output.location.steps ≠ [] := by
    simp [hlocation, dataset.steps_jobLocation]
  have hfront := Job.isFront_of_mem_fronts hfront
  by_cases hfound : isSearchable job.output.location = true ∧
      IsOpen store (startOf store.here job.output.location)
        job.output.location.steps
  · obtain ⟨hsearch, hopen⟩ := hfound
    rw [listing_of_open htree hsteps hnul hfront hsearch hopen] at hlisting
    obtain rfl := Except.ok.inj hlisting
    have hnames :
        ∀ name ∈ (store.namesIn (job.place store.here)).filter
          (beginsWith front),
        name ∈ store.namesIn (job.place store.here) :=
      fun name hname => (List.mem_filter.1 hname).1
    obtain ⟨hlead, htargets⟩ := leadTo_child hlocation hnul htree hsearch hnames
    subst hstate
    refine (recorded_deleteEach_files h hlead htree).mono
      fun _ after events hdeletes => ?_
    have hreached : job.reached [front] (place.store state) = _ :=
      if_pos hsearch
    rw [List.flatMap_singleton] at hreached
    rw [htargets, ← hreached] at hdeletes
    refine hdeletes.shorten (fun target htarget hbelow => ?_)
      ((isOpen_location_iff hlocation).1 hopen)
    obtain ⟨-, -, -, name, -, -, rfl⟩ := Job.mem_reached_iff.1 htarget
    rw [← place_eq_placeFrom hlocation] at hbelow
    have hlength := hbelow.length_le
    rw [List.length_append, List.length_singleton] at hlength
    omega
  · rw [not_and] at hfound
    rw [listing_of_closed hsteps hnul hfront hfound] at hlisting
    obtain rfl := Except.ok.inj hlisting
    refine .pure ?_
    rw [hstate]
    refine ⟨.refl _ _, fun _ _ => rfl, fun _ hopen => ?_⟩
    rw [reached_eq_nil hlocation htree hopen hfound]
    exact ⟨rfl, fun _ htakes => htakes.elim, fun _ _ => rfl⟩

omit htree in
theorem recorded_deleteMatching_files (h : around.IsOnStore place)
    {fronts : List String}
    (hnodup : fronts.Nodup) (hfronts : ∀ front ∈ fronts, front ∈ Job.fronts)
    {state : σ} (htree : IsTree (place.store state)) :
    let patterns := fronts.map fun front =>
      Glob.patternIn job.output.location (front ++ "*")
    Recorded state (deleteMatching around.recorded patterns)
    (deleteMatching around patterns) fun _ after events =>
      Tidies (IsGranted events) dataset.output fronts job (place.store state)
        (place.store after) := by
  induction fronts generalizing state with
  | nil =>
      refine .pure ?_
      have hnil : job.reached [] (place.store state) = [] := by
        simp [Job.reached]
      rw [Tidies, hnil]
      exact .refl _
  | cons front rest ih =>
      simp only [List.map_cons, deleteMatching, Surroundings.run_recorded_list,
        Surroundings.recorded_tell]
      refine .record_bind fun result listed hlist => ?_
      obtain ⟨hresult, hlisted⟩ := h.run_list hlist
      have hfront := hfronts front List.mem_cons_self
      obtain ⟨paths, hlisting⟩ : ∃ paths, (place.store state).listing
          (Glob.patternIn job.output.location (front ++ "*")) = .ok paths := by
        have hne : job.output.location.text ≠ "" := fun hempty => by
          simpa [hlocation, dataset.steps_jobLocation]
            using Path.steps_of_empty hempty
        obtain ⟨fuel, hlisting⟩ :=
          listing_patternIn (place.store state) hne
            (Job.isFront_of_mem_fronts hfront)
        exact ⟨_, hlisting⟩
      rw [hresult, hlisting]
      refine (recorded_deleteFront_files hlocation hnul htree h hfront hlisted
        hlisting).bind fun _ between deleted hfirst => ?_
      refine (ih (List.nodup_cons.1 hnodup).2
        (fun other hother => hfronts other (.tail _ hother))
        (hfirst.shrinks.isTree htree)).mono fun _ after events hrest => ?_
      refine (hfirst.cons hnodup hfronts hrest).mono fun hgranted => ?_
      simpa [isGranted_cons, isGranted_append] using hgranted

end Jobs

end JobChain
