import JobChain.Chain
import JobChain.Proofs.Plan.Growth
import JobChain.Proofs.Store.Ways

/-!
# The layout of compiled jobs

Each job of a chain has a directory of its own in the output, named after its
place in the chain. Only the last one can publish.
-/

namespace JobChain

/-! ## Directories of jobs -/

namespace Dataset

private theorem mem_jobDirectory {ordinal : Nat} {c : Char}
    (h : c ∈ (jobDirectory ordinal).toList) : c ∈ "job-".toList ∨
    c.isDigit = true := by
  have hmem : c ∈ "job-".toList ++ Text.natChars ordinal := by
    simpa [jobDirectory, Text.natText] using h
  exact (List.mem_append.1 hmem).imp id Text.isDigit_of_mem_natChars

theorem no_slash_jobDirectory (ordinal : Nat) :
    '/' ∉ (jobDirectory ordinal).toList := fun h =>
  absurd (mem_jobDirectory h) (by decide)

private theorem no_nul_jobDirectory (ordinal : Nat) :
    '\x00' ∉ (jobDirectory ordinal).toList := fun h =>
  absurd (mem_jobDirectory h) (by decide)

theorem jobDirectory_ne (ordinal : Nat) {name : String}
    (h : name.toList.head? ≠ some 'j') : jobDirectory ordinal ≠ name := by
  rintro rfl
  simp [jobDirectory] at h

theorem isStep_jobDirectory (ordinal : Nat) :
    Path.isStep (jobDirectory ordinal) = true := by
  have hempty := jobDirectory_ne ordinal
    (by decide : ("" : String).toList.head? ≠ some 'j')
  have hcurrent := jobDirectory_ne ordinal
    (by decide : (".":String).toList.head? ≠ some 'j')
  simp [Path.isStep, hempty, hcurrent]

theorem jobDirectory_injective {ordinal ordinal' : Nat}
    (h : jobDirectory ordinal = jobDirectory ordinal') :
    ordinal = ordinal' := by
  refine Text.natChars_injective ?_
  have hlists := congrArg String.toList h
  simpa [jobDirectory, Text.natText] using hlists

variable (dataset : Dataset)

theorem steps_jobLocation (ordinal : Nat) :
    (dataset.jobLocation ordinal).steps = dataset.output.steps ++
    [jobDirectory ordinal] := by
  rw [jobLocation, Path.steps_child _ (no_slash_jobDirectory ordinal),
    List.filter_cons_of_pos (isStep_jobDirectory ordinal), List.filter_nil]

theorem isAbsolute_jobLocation (ordinal : Nat) :
    (dataset.jobLocation ordinal).isAbsolute = dataset.output.isAbsolute :=
  Path.isAbsolute_child _ (no_slash_jobDirectory ordinal)

theorem startOf_jobLocation (here : Place) (ordinal : Nat) :
    Store.startOf here (dataset.jobLocation ordinal) =
      Store.startOf here dataset.output := by
  rw [Store.startOf, isAbsolute_jobLocation, Store.startOf]

theorem placeOf_jobLocation (here : Place) (ordinal : Nat) :
    Store.placeOf here (dataset.jobLocation ordinal) =
      Store.placeOf here dataset.output ++ [jobDirectory ordinal] :=
  Store.placeOf_child _ (no_slash_jobDirectory ordinal)
    (isStep_jobDirectory ordinal) (jobDirectory_ne ordinal (by decide)) here

theorem getLast?_jobLocation (ordinal : Nat) :
    (dataset.jobLocation ordinal).text.toList.getLast? ≠ some '/' := by
  have hslash := no_slash_jobDirectory ordinal
  have hne : (jobDirectory ordinal).toList ≠ [] := by simp [jobDirectory]
  rw [jobLocation, Path.text_child _ hslash, String.toList_append,
    List.getLast?_append_of_ne_nil _ hne]
  exact fun hlast => hslash (List.mem_of_getLast? hlast)

theorem no_nul_jobLocation (hnul : '\x00' ∉ dataset.output.text.toList)
    (ordinal : Nat) : '\x00' ∉ (dataset.jobLocation ordinal).text.toList := by
  rw [jobLocation, Path.text_child _ (no_slash_jobDirectory ordinal),
    String.toList_append]
  intro hmem
  rcases List.mem_append.1 hmem with hmem | hmem
  · exact hnul (Path.mem_of_mem_front hmem (by decide))
  · exact no_nul_jobDirectory ordinal hmem

end Dataset

/-! ## Compiling -/

/-- Jobs whose directories follow each other in the output, of which only the
last may publish. -/
structure IsLaidOut (dataset : Dataset) (jobs : List Job) : Prop where
  location_eq : ∀ index job, jobs[index]? = some job →
    job.output.location = dataset.jobLocation index
  last_of_publishes : ∀ index job, jobs[index]? = some job →
    job.publishes = true → index + 1 = jobs.length

theorem IsLaidOut.exists_location {dataset : Dataset} {jobs : List Job}
    (h : IsLaidOut dataset jobs) {job : Job} (hjob : job ∈ jobs) :
    ∃ ordinal, job.output.location = dataset.jobLocation ordinal := by
  obtain ⟨index, hindex⟩ := List.mem_iff_getElem?.1 hjob
  exact ⟨index, h.location_eq index job hindex⟩

theorem Assembly.assemble_eq_ok {assembly : Assembly} {block : Block}
    {job : Job} (h : assembly.assemble block = .ok job) :
    job = assembly.jobOf block ∧ ∀ stage ∈ block.stages,
    stage.check = .ok () := by
  have hchecked : ∀ stages, checkAll stages = .ok () → ∀ stage ∈ stages,
      stage.check = .ok () := by
    intro stages
    induction stages with
    | nil => simp
    | cons stage rest ih =>
        intro hall
        rw [checkAll] at hall
        split at hall
        · cases hall
        · rename_i hstage
          exact List.forall_mem_cons.2 ⟨hstage, ih hall⟩
  unfold assemble at h
  split_ifs at h
  split at h
  · cases h
  · rename_i hcheck
    exact ⟨(Except.ok.inj h).symm, hchecked _ hcheck⟩

private theorem Assembly.assembleAll_eq_ok {assembly : Assembly}
    {blocks : List Block} {jobs : List Job}
    (h : assembly.assembleAll blocks = .ok jobs) :
    jobs = blocks.map assembly.jobOf := by
  induction blocks generalizing jobs with
  | nil =>
      cases h
      rfl
  | cons block rest ih =>
      unfold assembleAll at h
      cases hjob : assembly.assemble block with
      | error error => simp [hjob] at h
      | ok job =>
          cases hrest : assembly.assembleAll rest with
          | error error => simp [hjob, hrest, Except.map] at h
          | ok others =>
              obtain rfl : job :: others = jobs := by
                simpa [hjob, hrest, Except.map] using h
              obtain ⟨rfl, -⟩ := assemble_eq_ok hjob
              rw [ih hrest, List.map_cons]

theorem Chain.compile_eq_ok {chain : Chain} {store : Store}
    {home? : Option String} {dataset : Dataset} {jobs : List Job}
    (h : (chain.compile store home? dataset).2 = .ok jobs) :
    ∃ package,
      jobs = chain.plan.blocks.map (chain.assembly dataset package).jobOf := by
  unfold compile at h
  split_ifs at h with hempty
  · obtain rfl : [] = jobs := Except.ok.inj h
    exact ⟨default, by simp [List.isEmpty_iff.1 hempty]⟩
  · split at h
    · cases h
    · rename_i package _
      split at h
      · cases h
      · rename_i assembled hassembled
        obtain rfl : assembled = jobs := Except.ok.inj h
        exact ⟨package, Assembly.assembleAll_eq_ok hassembled⟩

/-- Jobs that read one from another. -/
structure IsWired (dataset : Dataset) (jobs : List Job) : Prop where
  input_eq : ∀ index job, jobs[index]? = some job →
      job.input = Assembly.inputOf dataset index
  output_eq : ∀ index job, jobs[index]? = some job → ∃ assembly : Assembly,
    assembly.dataset = dataset ∧ assembly.total = jobs.length ∧
      job.output = assembly.outputOf index

theorem isWired_of_compile {chain : Chain} {entries : List (Plan.Entry × Stage)}
    {store : Store} {home? : Option String} {dataset : Dataset}
    {jobs : List Job} (hgrown : Plan.enterAll {} entries = .ok chain.plan)
    (h : (chain.compile store home? dataset).2 = .ok jobs) :
    IsWired dataset jobs := by
  obtain ⟨package, rfl⟩ := Chain.compile_eq_ok h
  have hordinals := (Plan.isTightFor_nil.enterAll hgrown).ordinals
  have hjob : ∀ index job,
      (chain.plan.blocks.map (chain.assembly dataset package).jobOf)[index]? =
        some job → ∃ block, block.ordinal = index ∧
        job = (chain.assembly dataset package).jobOf block := by
    intro index job hjob
    rw [List.getElem?_map, Option.map_eq_some_iff] at hjob
    obtain ⟨block, hblock, rfl⟩ := hjob
    have hat := congrArg (fun ordinals => ordinals[index]?) hordinals
    obtain ⟨hlt, rfl⟩ := List.getElem?_eq_some_iff.1 hblock
    exact ⟨_, by simpa [List.getElem?_range, hlt] using hat, rfl⟩
  refine ⟨fun index job hindex => ?_, fun index job hindex => ?_⟩
  · obtain ⟨block, rfl, rfl⟩ := hjob index job hindex
    rfl
  · obtain ⟨block, rfl, rfl⟩ := hjob index job hindex
    exact ⟨chain.assembly dataset package,
      rfl, by rw [List.length_map]; rfl, rfl⟩

theorem IsWired.isLaidOut {dataset : Dataset} {jobs : List Job}
    (h : IsWired dataset jobs) : IsLaidOut dataset jobs := by
  refine ⟨fun index job hindex => ?_, fun index job hindex hpublishes => ?_⟩
  · obtain ⟨assembly, rfl, -, houtput⟩ := h.output_eq index job hindex
    rw [houtput]
    rfl
  · obtain ⟨assembly, -, htotal, houtput⟩ := h.output_eq index job hindex
    rw [Job.publishes, houtput, Assembly.outputOf, decide_eq_true_iff]
      at hpublishes
    by_contra hlast
    rw [if_neg (by rwa [htotal])] at hpublishes
    cases hpublishes

theorem isLaidOut_of_compile {chain : Chain}
    {entries : List (Plan.Entry × Stage)} {store : Store}
    {home? : Option String} {dataset : Dataset} {jobs : List Job}
    (hgrown : Plan.enterAll {} entries = .ok chain.plan)
    (h : (chain.compile store home? dataset).2 = .ok jobs) :
    IsLaidOut dataset jobs :=
  (isWired_of_compile hgrown h).isLaidOut

/-- A job before another one, which reads what it leaves. -/
theorem IsWired.next {dataset : Dataset} {jobs : List Job}
    (h : IsWired dataset jobs) {index : Nat} {job next : Job}
    (hjob : jobs[index]? = some job) (hnext : jobs[index + 1]? = some next) :
    job.output.format = .intermediate ∧
      job.output.named = [⟨sideOutput, dataset.sideFormat⟩,
        ⟨graphOutput, .intermediate⟩] ∧
      next.input = { location := job.output.location, format := .intermediate } := by
  obtain ⟨assembly, rfl, htotal, houtput⟩ := h.output_eq index job hjob
  have hlast : index + 1 ≠ assembly.total := by
    have hlt := (List.getElem?_eq_some_iff.1 hnext).1
    omega
  rw [houtput, h.input_eq (index + 1) next hnext]
  simp [Assembly.outputOf, Assembly.inputOf, hlast]

end JobChain
