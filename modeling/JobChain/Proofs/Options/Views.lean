import JobChain.Builtin
import JobChain.Proofs.Layout
import JobChain.Proofs.Options.Scopes

/-!
# What the stages of a job see

The assembly of a job packs the options of its stages into one map, and the view
of a step unpacks them. The names under which they are packed tell stages and
options apart, so a stage gets back its own options over what is shared. A chain
can reach the packed options with names of its own that end in digits.
-/

namespace JobChain

/-! ## Packing -/

namespace Options

variable {options other : Options} {key : String}

private theorem get?_mergeScoped_scopedName (options other : Options)
    (name : String) (step : Nat) :
    (options.mergeScoped other step).get? (scopedName name step) =
      (other.get? name).or (options.get? (scopedName name step)) := by
  rw [mergeScoped, SortedMap.get?_insertAll]
  congr 1
  cases hvalue : other.get? name with
  | none =>
      apply Assoc.lastOf?_eq_none
      intro entry hentry heq
      obtain ⟨own, hown, rfl⟩ := List.mem_map.1 hentry
      obtain ⟨rfl, -⟩ := scopedName_inj.1 heq
      rw [SortedMap.get?_eq_some_iff.2 hown] at hvalue
      cases hvalue
  | some value =>
      apply Assoc.lastOf?_eq_some_of_unique
      · exact List.mem_map.2 ⟨(name, value),
          SortedMap.get?_eq_some_iff.1 hvalue, rfl⟩
      · intro entry hentry heq
        obtain ⟨own, hown, rfl⟩ := List.mem_map.1 hentry
        obtain ⟨rfl, -⟩ := scopedName_inj.1 heq
        rw [SortedMap.get?_eq_some_iff.2 hown] at hvalue
        exact Option.some.inj hvalue

private theorem get?_mergeScoped_of_ne {step : Nat}
    (h : ∀ name, key ≠ scopedName name step) :
    (options.mergeScoped other step).get? key = options.get? key := by
  rw [mergeScoped, SortedMap.get?_insertAll, Assoc.lastOf?_eq_none,
    Option.none_or]
  intro entry hentry heq
  obtain ⟨own, -, rfl⟩ := List.mem_map.1 hentry
  exact h own.1 heq.symm

private theorem get?_setIfAbsent (options : Options) (name value key : String) :
    (options.setIfAbsent name value).get? key =
      (options.get? key).or (if key = name then some value else none) := by
  rw [setIfAbsent, SortedMap.contains]
  cases hpresent : options.get? name with
  | some present =>
      by_cases hkey : key = name
      · subst hkey
        simp [hpresent]
      · simp [hkey]
  | none =>
      by_cases hkey : key = name
      · subst hkey
        simp [hpresent, SortedMap.get?_insert]
      · simp [hkey, SortedMap.get?_insert]

private theorem paddedName_ne_scopedName {name : String} {zeros step : Nat}
    (h : 0 < zeros) : paddedName name zeros step ≠ scopedName name step := by
  intro heq
  have hsplit := splitLastDash?_paddedName name zeros step
  rw [heq, splitLastDash?_scopedName] at hsplit
  have hdigits := congrArg List.length (Prod.mk.inj (Option.some.inj hsplit)).2
  rw [List.length_append, List.length_replicate] at hdigits
  omega

private theorem ne_scopedName_of_splitScope? {name : String} {step : Nat}
    (hsplit : splitScope? key = some (name, step))
    (hne : key ≠ scopedName name step) (other : String)
    (n : Nat) : key ≠ scopedName other n := by
  rintro rfl
  obtain ⟨hword, zeros, heq⟩ := splitScope?_eq_some_iff.1 hsplit
  obtain ⟨hname, hdigits⟩ := Prod.mk.inj (Option.some.inj
    ((splitLastDash?_scopedName other n).symm.trans (heq ▸
      splitLastDash?_paddedName name zeros step)))
  have hread : Text.readDigits? (Text.natChars n) = some step :=
    Text.readDigits?_eq_some_iff.2 ⟨zeros, hdigits⟩
  rw [Text.readDigits?_natChars] at hread
  obtain rfl := Option.some.inj hread
  exact hne (by rw [String.toList_inj.1 hname])

end Options

namespace Assembly

variable {assembly : Assembly} {block : Block} {job : Job} {key name : String}

theorem get?_addScoped_of_ne {options : Options} {first : Nat}
    {stages : List Stage}
    (h : ∀ name n, first ≤ n → n < first + stages.length →
      key ≠ Options.scopedName name n) :
    (addScoped options first stages).get? key = options.get? key := by
  induction stages generalizing options first with
  | nil => rfl
  | cons stage rest ih =>
      rw [List.length_cons] at h
      rw [addScoped, ih fun name n hfirst hn => h name n (by omega) (by omega)]
      exact Options.get?_mergeScoped_of_ne fun name => h name first (by omega)
        (by omega)

theorem get?_addScoped_scopedName (options : Options) (first : Nat)
    (stages : List Stage) (name : String) (index : Nat) :
    (addScoped options first stages).get?
      (Options.scopedName name (first + index)) =
      ((stages[index]?).bind fun stage => stage.options.get? name).or
        (options.get? (Options.scopedName name (first + index))) := by
  induction stages generalizing options first index with
  | nil => rfl
  | cons stage rest ih =>
      rw [addScoped]
      cases index with
      | zero =>
          rw [get?_addScoped_of_ne, Nat.add_zero,
            Options.get?_mergeScoped_scopedName]
          · rfl
          · intro other n hfirst _ heq
            have := (Options.scopedName_inj.1 heq).2
            omega
      | succ index =>
          have hstep : first + (index + 1) = first + 1 + index := by omega
          rw [hstep, ih, Options.get?_mergeScoped_of_ne,
            List.getElem?_cons_succ]
          intro other heq
          have := (Options.scopedName_inj.1 heq).2
          omega

/-! ## Options of a whole job -/

def shuffleOption? (name : String) : Option String :=
  if name = Options.compress then some "true"
  else if name = Options.compressCodec then some defaultCodec
  else none

private theorem get?_addShuffle (options : Options) (name : String) :
    (addShuffle options).get? name =
      (options.get? name).or (shuffleOption? name) := by
  rw [addShuffle, Options.get?_setIfAbsent, Options.get?_setIfAbsent,
    Option.or_assoc, shuffleOption?]
  congr 1
  split <;> rfl

theorem get?_optionsOf (assembly : Assembly) (block : Block) (key : String) :
    (assembly.optionsOf block).get? key =
      if key = Options.trackPaths then
        some (Options.boolText assembly.trackPaths)
      else ((addScoped assembly.options 0 block.stages).get? key).or
        (if block.hasReduce then shuffleOption? key else none) := by
  have hset :
      ((addScoped assembly.options 0 block.stages).setSwitch Options.trackPaths
        assembly.trackPaths).get? key = if key = Options.trackPaths then
        some (Options.boolText assembly.trackPaths)
      else (addScoped assembly.options 0 block.stages).get? key :=
    SortedMap.get?_insert ..
  rw [optionsOf]
  split
  · rw [get?_addShuffle, hset]
    split <;> rfl
  · rw [hset, Option.or_none]

private theorem ne_of_splitScope? (h : Options.splitScope? key ≠ none) :
    key ≠ Options.trackPaths ∧ shuffleOption? key = none := by
  have hset : ∀ set ∈ [Options.trackPaths, Options.compress,
      Options.compressCodec], Options.splitScope? set = none := by decide
  have hne : ∀ set ∈ [Options.trackPaths, Options.compress,
      Options.compressCodec], key ≠ set := by
    rintro set hmem rfl
    exact h (hset key hmem)
  refine ⟨hne _ (by simp), ?_⟩
  rw [shuffleOption?, if_neg (hne _ (by simp)), if_neg (hne _ (by simp))]

private theorem get?_optionsOf_of_splitScope? (assembly : Assembly)
    (block : Block) (h : Options.splitScope? key ≠ none) :
    (assembly.optionsOf block).get? key =
      (addScoped assembly.options 0 block.stages).get? key := by
  obtain ⟨hne, hnone⟩ := ne_of_splitScope? h
  rw [get?_optionsOf, if_neg hne, hnone, ite_self, Option.or_none]

theorem get?_optionsOf_paddedName (assembly : Assembly) (block : Block)
    (name : String) {zeros step : Nat} (hzeros : 0 < zeros)
    (hword : step < 2 ^ 64) :
    (assembly.optionsOf block).get? (Options.paddedName name zeros step) =
      assembly.options.get? (Options.paddedName name zeros step) := by
  have hsplit := Options.splitScope?_paddedName name zeros hword
  rw [get?_optionsOf_of_splitScope? _ _ (by simp [hsplit])]
  apply get?_addScoped_of_ne
  intro other n _ _
  exact Options.ne_scopedName_of_splitScope? hsplit
    (Options.paddedName_ne_scopedName hzeros) other n

theorem get?_optionsOf_scopedName (assembly : Assembly) (block : Block)
    (name : String) {step : Nat} (hword : step < 2 ^ 64) :
    (assembly.optionsOf block).get? (Options.scopedName name step) =
      ((block.stages[step]?).bind fun stage => stage.options.get? name).or
        (assembly.options.get? (Options.scopedName name step)) := by
  rw [get?_optionsOf_of_splitScope? _ _
    (by simp [Options.splitScope?_scopedName name hword])]
  simpa using get?_addScoped_scopedName assembly.options 0 block.stages
    name step

/-! ## Views -/

theorem hasReduce_of_assemble (h : assembly.assemble block = .ok job) :
    job.hasReduce = block.hasReduce := by
  obtain ⟨rfl, hchecked⟩ := assemble_eq_ok h
  change (block.reduceStage?.bind Stage.reduce).isSome =
      block.reduceStage?.isSome
  cases hstage : block.reduceStage? with
  | none => rfl
  | some stage =>
      obtain ⟨hlast, hkind⟩ := Option.filter_eq_some_iff.1 hstage
      have hcheck := hchecked stage (List.mem_of_getLast? hlast)
      have hreduce : stage.kind = .mapReduce := of_decide_eq_true hkind
      cases hnone : stage.reduce with
      | some reduce => simp [hnone]
      | none => simp [Stage.check, hreduce, hnone] at hcheck; split at hcheck <;> cases hcheck

private theorem get?_shared_optionsOf (hword : block.stages.length ≤ 2 ^ 64)
    (hclear : assembly.options.IsUnscoped) :
    (assembly.optionsOf block).shared.get? name =
      if name = Options.trackPaths then
        some (Options.boolText assembly.trackPaths)
      else (assembly.options.get? name).or (if block.hasReduce then
        shuffleOption? name else none) := by
  rw [Options.get?_shared]
  cases hsplit : Options.splitScope? name with
  | none =>
      rw [if_pos rfl, get?_optionsOf, get?_addScoped_of_ne]
      rintro other n - hn rfl
      rw [Options.splitScope?_scopedName other (by omega)] at hsplit
      cases hsplit
  | some part =>
      have hscoped : Options.splitScope? name ≠ none := by simp [hsplit]
      obtain ⟨hne, hnone⟩ := ne_of_splitScope? hscoped
      rw [if_neg (by simp), if_neg hne, hclear.get?_eq_none hsplit, hnone,
        ite_self, Option.or_none]

/-- A stage sees what is packed under the scoped name, unless the chain has an
option at step zero with more zeros. -/
theorem get?_view_of_scoped {step : Nat} {value : String}
    (hword : step < 2 ^ 64)
    (hkey : (assembly.optionsOf block).get? (Options.scopedName name step) =
      some value)
    (hrival : step = 0 → ∀ zeros > 0,
      assembly.options.get? (Options.paddedName name zeros 0) = none) :
    ((assembly.optionsOf block).view step).get? name = some value := by
  apply Options.get?_view_of_last hkey
    (Options.splitScope?_scopedName name hword)
  intro other hsplit hset
  obtain ⟨-, zeros, rfl⟩ := Options.splitScope?_eq_some_iff.1 hsplit
  rcases Nat.eq_zero_or_pos zeros with rfl | hzeros
  · exact .inl (Options.paddedName_zero name step)
  rcases Nat.eq_zero_or_pos step with rfl | hstep
  · rw [get?_optionsOf_paddedName _ _ _ hzeros hword] at hset
    exact absurd (hrival rfl zeros hzeros) hset
  · exact .inr (Options.compare_paddedName_scopedName name hzeros hstep)

theorem get?_view_of_own {step : Nat} {stage : Stage} {value : String}
    (hword : step < 2 ^ 64) (hstage : block.stages[step]? = some stage)
    (hown : stage.options.get? name = some value)
    (hrival : step = 0 → ∀ zeros > 0,
      assembly.options.get? (Options.paddedName name zeros 0) = none) :
    ((assembly.optionsOf block).view step).get? name = some value := by
  refine get?_view_of_scoped hword ?_ hrival
  rw [get?_optionsOf_scopedName _ _ _ hword, hstage, Option.bind_some, hown,
    Option.some_or]

private theorem get?_view_of_rival {zeros : Nat} {rival : String}
    (hzeros : 0 < zeros)
    (hrival : assembly.options.get? (Options.paddedName name zeros 0) =
      some rival)
    (hmore : ∀ more > zeros,
      assembly.options.get? (Options.paddedName name more 0) = none) :
    ((assembly.optionsOf block).view 0).get? name = some rival := by
  have hword : 0 < 2 ^ 64 := by decide
  rw [← get?_optionsOf_paddedName assembly block name hzeros hword] at hrival
  apply Options.get?_view_of_last hrival
    (Options.splitScope?_paddedName name zeros hword)
  intro other hsplit hset
  obtain ⟨-, others, rfl⟩ := Options.splitScope?_eq_some_iff.1 hsplit
  rcases Nat.lt_trichotomy others zeros with hless | rfl | hgreater
  · exact .inr (Options.compare_paddedName_zero name hless)
  · exact .inl rfl
  · rw [get?_optionsOf_paddedName _ _ _ (by omega) hword] at hset
    exact absurd (hmore others hgreater) hset

/-- Each stage of a job sees its own options, and the reduce side and the
combiner see those of the stage that they belong to. No other stage can replace
one, and of the options of the chain only those that follow the name with a dash
and at least two zeros, at the first step; of these the last in order counts. -/
theorem own_option_prevails (hjob : assembly.assemble block = .ok job)
    {step : Nat} {stage : Stage} {value : String} (hword : step < 2 ^ 64)
    (hstage : block.stages[step]? = some stage)
    (hown : stage.options.get? name = some value) :
    ((step = 0 → ∀ zeros > 0,
      assembly.options.get? (Options.paddedName name zeros 0) = none) →
      (job.options.view step).get? name = some value) ∧
    (∀ zeros rival, step = 0 → 0 < zeros →
      assembly.options.get? (Options.paddedName name zeros 0) = some rival →
      (∀ more > zeros,
        assembly.options.get? (Options.paddedName name more 0) = none) →
      (job.options.view step).get? name = some rival) ∧
    (block.reduceStep? = some step →
      job.reduceView = job.options.view step) := by
  obtain ⟨rfl, -⟩ := assemble_eq_ok hjob
  refine ⟨get?_view_of_own hword hstage hown, ?_, ?_⟩
  · rintro zeros rival rfl hzeros hrival hmore
    exact get?_view_of_rival hzeros hrival hmore
  · intro hreduce
    obtain rfl : block.stages.length - 1 = step :=
      Option.some.inj (Option.ite_none_right_eq_some.1 hreduce).2
    rfl

def paddedAssembly : Assembly where
  dataset := { input := ⟨"in"⟩, output := ⟨"out"⟩ }
  options := .ofList [("k-00", "chain"), ("k-01", "chain"), ("k", "all")]
  trackPaths := false
  package := ⟨"/opt/p.tar"⟩
  total := 1

def paddedBlock : Block where
  ordinal := 0
  stages :=
    [{ name := "a", kind := .mapOnly, map := "identity"
       options := .ofList [("k", "first")] },
      { Builtin.groupCountStage "b" "label" with options := .ofList [("k",
        "second")] }]

theorem own_option_prevails_padded :
    paddedAssembly.assemble paddedBlock =
      .ok (paddedAssembly.jobOf paddedBlock) ∧
      ((paddedAssembly.jobOf paddedBlock).options.view 0).get? "k" =
        some "chain" ∧
      ((paddedAssembly.jobOf paddedBlock).options.view 1).get? "k" =
        some "second" ∧
      (paddedAssembly.jobOf paddedBlock).reduceView.get? "k" =
        some "second" := by
  have hjob : paddedAssembly.assemble paddedBlock =
      .ok (paddedAssembly.jobOf paddedBlock) := rfl
  have hfirst := @own_option_prevails _ _ _ "k" hjob 0 _ "first" (by decide) rfl
    (by decide)
  have hsecond := @own_option_prevails _ _ _ "k" hjob 1 _ "second"
    (by decide) rfl (by decide)
  have hview := hsecond.1 (by simp)
  refine ⟨hjob, hfirst.2.1 1 "chain" rfl (by decide) (by decide) ?_, hview, ?_⟩
  · intro more hmore
    have hshort : ∀ entry ∈ paddedAssembly.options.toList,
        entry.1.toList.length ≤ 4 := by decide
    by_contra hset
    obtain ⟨value, hvalue⟩ := Option.ne_none_iff_exists'.1 hset
    have hlength := hshort _ (SortedMap.get?_eq_some_iff.1 hvalue)
    have hdigit : (Text.natChars 0).length = 1 := rfl
    simp [Options.paddedName] at hlength
    omega
  · rw [hsecond.2.2 (by decide), hview]

/-- What a stage sees is exactly its own options over those of the chain, where
the tracking of paths is set and a shuffle adds what is left open. -/
theorem get?_view_eq (hjob : assembly.assemble block = .ok job)
    (hword : block.stages.length ≤ 2 ^ 64)
    (hclear : assembly.options.IsUnscoped) (step : Nat) (name : String) :
    (job.options.view step).get? name =
      ((block.stages[step]?).bind fun stage => stage.options.get? name).or
        (if name = Options.trackPaths then
          some (Options.boolText assembly.trackPaths)
        else (assembly.options.get? name).or
          (if job.hasReduce then shuffleOption? name else none)) := by
  rw [hasReduce_of_assemble hjob]
  obtain ⟨rfl, -⟩ := assemble_eq_ok hjob
  cases hown : (block.stages[step]?).bind fun stage =>
    stage.options.get? name with
  | some value =>
      obtain ⟨stage, hstage, hvalue⟩ := Option.bind_eq_some_iff.1 hown
      have hstep : step < 2 ^ 64 := by
        have := (List.getElem?_eq_some_iff.1 hstage).1
        omega
      apply get?_view_of_own hstep hstage hvalue
      rintro rfl zeros -
      exact hclear.get?_eq_none
        (Options.splitScope?_paddedName name zeros hstep)
  | none =>
      rw [Option.none_or, ← get?_shared_optionsOf hword hclear]
      apply Options.get?_view_of_none
      intro key hsplit
      obtain ⟨hstep, zeros, rfl⟩ := Options.splitScope?_eq_some_iff.1 hsplit
      change (assembly.optionsOf block).get? _ = none
      rcases Nat.eq_zero_or_pos zeros with rfl | hzeros
      · rw [Options.paddedName_zero] at hsplit ⊢
        rw [get?_optionsOf_scopedName _ _ _ hstep, hown, Option.none_or]
        exact hclear.get?_eq_none hsplit
      · rw [get?_optionsOf_paddedName _ _ _ hzeros hstep]
        exact hclear.get?_eq_none hsplit

def manifoldBlock : Block where
  ordinal := 0
  stages := (List.range 12).map fun step =>
    { name := "s", kind := .mapOnly, map := "identity"
      options := .ofList [("", Text.natText step), ("k-1", Text.natText step)] }

def plainAssembly : Assembly :=
  { paddedAssembly with options := .ofList [("k", "all"), ("k-", "dash"),
    ("-x", "word")] }

theorem get?_view_eq_manifold :
    plainAssembly.options.IsUnscoped ∧ ∀ name,
      ((plainAssembly.jobOf manifoldBlock).options.view 11).get? name =
        ((SortedMap.ofList [("", "11"), ("k-1", "11")]).get? name).or
          (if name = Options.trackPaths then
            some "false" else plainAssembly.options.get? name) := by
  have hclear : plainAssembly.options.IsUnscoped :=
    Options.isUnscoped_of_forall (by decide)
  refine ⟨hclear, fun name => ?_⟩
  have hjob : plainAssembly.assemble manifoldBlock =
      .ok (plainAssembly.jobOf manifoldBlock) := rfl
  have hview := get?_view_eq hjob (by decide) hclear 11 name
  have hmaps : (plainAssembly.jobOf manifoldBlock).hasReduce =
      false := by decide
  rw [hview, hmaps]
  simp only [Bool.false_eq_true, if_false, Option.or_none]
  rfl

end Assembly

end JobChain
