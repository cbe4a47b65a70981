import JobChain.Proofs.Options.Views

/-!
# Path tracking over a chain

Whether paths are tracked is settled once for a chain, by its request or by an
option of it, and each job carries that flag. A stage reads it back through its
view of the options, in which an option under a scoped name comes first: the
flag itself is overwritten by the assembly, its scoped variants are not.
-/

namespace JobChain

private theorem ChainRequest.settings_of_chain {request : ChainRequest}
    {chain : Chain} (h : request.chain = .ok chain) :
    chain.options = request.options ∧
      chain.trackPaths = (request.trackPaths ||
        request.options.switch Options.trackPaths false) := by
  rw [ChainRequest.chain_eq] at h
  cases hplan : Plan.appendAll {} request.stages with
  | error error => simp [hplan] at h
  | ok plan =>
      simp only [hplan, Except.ok.injEq] at h
      rw [← h]
      exact ⟨rfl, rfl⟩

namespace Job

inductive Shadows (options : Options) (job : Job) (step : Nat)
    (value : String) : Prop where
  | own {stage : Stage} (hstage : job.stages[step]? = some stage)
      (hvalue : stage.options.get? Options.trackPaths = some value)
  | chain (zeros : Nat)
      (hvalue : options.get?
        (Options.paddedName Options.trackPaths zeros step) = some value)

end Job

namespace Assembly

variable {assembly : Assembly} {block : Block}

private theorem get?_shared_trackPaths (assembly : Assembly) (block : Block) :
    (assembly.optionsOf block).shared.get? Options.trackPaths =
      some (Options.boolText assembly.trackPaths) := by
  have hshared : Options.splitScope? Options.trackPaths = none := by decide
  rw [Options.get?_shared, if_pos hshared, get?_optionsOf, if_pos rfl]

private theorem get?_view_trackPaths (assembly : Assembly) (block : Block)
    (step : Nat) : ∃ value, (value = Options.boolText assembly.trackPaths ∨
        (assembly.jobOf block).Shadows assembly.options step value) ∧
      ((assembly.optionsOf block).view step).get? Options.trackPaths =
        some value := by
  rcases (assembly.optionsOf block).get?_view_eq_or step Options.trackPaths with
    hshared | ⟨key, value, hsplit, hkey, hview⟩
  · exact ⟨_, .inl rfl, hshared.trans (get?_shared_trackPaths assembly block)⟩
  · obtain ⟨hword, zeros, rfl⟩ := Options.splitScope?_eq_some_iff.1 hsplit
    refine ⟨value, .inr ?_, hview⟩
    rcases Nat.eq_zero_or_pos zeros with rfl | hzeros
    · rw [Options.paddedName_zero,
        get?_optionsOf_scopedName _ _ _ hword] at hkey
      rcases Option.or_eq_some_iff.1 hkey with hown | ⟨-, hchain⟩
      · obtain ⟨stage, hstage, hvalue⟩ := Option.bind_eq_some_iff.1 hown
        exact .own hstage hvalue
      · exact .chain 0 (by rwa [Options.paddedName_zero])
    · rw [get?_optionsOf_paddedName _ _ _ hzeros hword] at hkey
      exact .chain zeros hkey

end Assembly

/-- The flag of a chain is on exactly if its request or an option of it sets it,
every job of the chain carries it, and every stage and every reduce side sees
it, unless an option that comes before it says something else. Such an option is
what a stage sees in its place. -/
theorem trackPaths_seen {request : ChainRequest} {chain : Chain}
    (hchain : request.chain = .ok chain)
    {store : Store} {home? : Option String} {jobs : List Job}
    (hjobs : (chain.compile store home? request.dataset).2 = .ok jobs) :
    let flag := Options.boolText chain.trackPaths
    (chain.trackPaths = true ↔
      request.trackPaths = true ∨
      request.options.switch Options.trackPaths false = true) ∧
    ∀ job ∈ jobs, job.options.get? Options.trackPaths = some flag ∧
      job.reduceView = job.options.view (job.stages.length - 1) ∧
      ∀ step,
        ((∀ value, job.Shadows request.options step value → value = flag) →
          (job.options.view step).get? Options.trackPaths = some flag) ∧
        ∀ value, step < 2 ^ 64 →
          ((job.stages[step]?).bind fun stage =>
            stage.options.get? Options.trackPaths).or
              (request.options.get?
                (Options.scopedName Options.trackPaths step)) = some value →
          (step = 0 → ∀ zeros > 0,
            request.options.get?
              (Options.paddedName Options.trackPaths zeros 0) = none) →
          (job.options.view step).get? Options.trackPaths = some value := by
  obtain ⟨hoptions, htrack⟩ := ChainRequest.settings_of_chain hchain
  obtain ⟨package, rfl⟩ := Chain.compile_eq_ok hjobs
  refine ⟨by
    rw [htrack, Bool.or_eq_true], List.forall_mem_map.2 fun block _ => ?_⟩
  refine ⟨?_, rfl, fun step => ⟨?_, ?_⟩⟩
  · exact (Assembly.get?_optionsOf _ block _).trans (if_pos rfl)
  · intro hagree
    obtain ⟨value, hvalue, hview⟩ :=
      (chain.assembly request.dataset package).get?_view_trackPaths block step
    rw [← hoptions] at hagree
    rcases hvalue with rfl | hshadows
    · exact hview
    · rwa [hagree value hshadows] at hview
  · intro value hword hvalue hrivals
    rw [← hoptions] at hvalue hrivals
    exact Assembly.get?_view_of_scoped hword
      ((Assembly.get?_optionsOf_scopedName _ block _ hword).trans
        hvalue) hrivals

def partedRequest : ChainRequest where
  name := "cadena"
  stages :=
    [{ Builtin.startPathsStage "a" with options := .ofList [(Options.trackPaths,
      "true")] }, Builtin.groupCountStage "b" "label"]
  dataset := { input := ⟨"in"⟩, output := ⟨"out"⟩ }
  options := .ofList [(Options.package, "/opt/p.tar")]

def partedChain : Chain where
  plan :=
    { mode := .closed,
      blocks := [{ ordinal := 0, stages := partedRequest.stages }] }
  options := partedRequest.options
  trackPaths := false

theorem trackPaths_seen_parted :
    ∃ job, partedRequest.chain = .ok partedChain ∧
      (partedChain.compile {} none partedRequest.dataset).2 = .ok [job] ∧
      job.options.get? Options.trackPaths = some "false" ∧
      (job.options.view 0).get? Options.trackPaths = some "true" ∧
      (job.options.view 1).get? Options.trackPaths = some "false" ∧
      job.reduceView.get? Options.trackPaths = some "false" := by
  have hchain : partedRequest.chain = .ok partedChain := by rfl
  let job := (partedChain.assembly partedRequest.dataset ⟨"/opt/p.tar"⟩).jobOf
    { ordinal := 0, stages := partedRequest.stages }
  have hjobs : (partedChain.compile {} none partedRequest.dataset).2 =
      .ok [job] := by rfl
  have hclear : partedRequest.options.IsUnscoped :=
    Options.isUnscoped_of_forall (by decide)
  have hnone : ∀ zeros step, step < 2 ^ 64 →
      partedRequest.options.get?
        (Options.paddedName Options.trackPaths zeros step) = none :=
    fun zeros step hword =>
      hclear.get?_eq_none (Options.splitScope?_paddedName _ zeros hword)
  have hshadows : ∀ value, job.Shadows partedRequest.options 1 value →
      value = "false" := by
    rintro value (⟨hstage, hvalue⟩ | ⟨zeros, hvalue⟩)
    · obtain rfl := Option.some.inj hstage
      cases hvalue
    · rw [hnone zeros 1 (by decide)] at hvalue
      cases hvalue
  obtain ⟨-, hseen⟩ := trackPaths_seen hchain hjobs
  obtain ⟨hcarried, hreduce, hsteps⟩ := hseen job (by simp)
  have hfirst := (hsteps 0).2 "true" (by decide) rfl fun _ zeros _ =>
    hnone zeros 0 (by decide)
  have hsecond := (hsteps 1).1 hshadows
  have hlast : job.stages.length - 1 = 1 := rfl
  rw [hlast] at hreduce
  exact ⟨job, hchain, hjobs, hcarried, hfirst,
    hsecond, by rw [hreduce]; exact hsecond⟩

end JobChain
