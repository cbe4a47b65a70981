import JobChain.Proofs.Compilation
import JobChain.Proofs.Counters
import JobChain.Proofs.Engine.Tasks
import JobChain.Proofs.Filter.Stripping
import JobChain.Proofs.Formula.Reading
import JobChain.Registry

/-!
# Filters one behind another

A row of filters with scripts comes to the same as one filter whose script joins
them all. The texts of two scripts are joined in brackets, the stages find their
own options again, and each filter of the row looks only at elements that the
ones before it have left alone.
-/

namespace JobChain

/-! ## Joined texts -/

namespace Formula

def joinedText (first second : String) : String :=
  "(" ++ first ++ ") && (" ++ second ++ ")"

private theorem Writes.exists_nested {formula : Formula}
    {chars spaces : List Char} (h : Writes formula chars)
    (hspaces : IsSpaces spaces) : ∃ tokens, Derives .operand formula tokens ∧
      Spelled tokens (spaces ++ '(' :: (chars ++ [')'])) := by
  obtain ⟨tokens, front, behind, hderives, hspelled, hbehind, rfl⟩ := h
  have hopening : Token.opening.Spells ['('] := .symbol rfl
  have hclosing : Token.closing.Spells [')'] := .symbol rfl
  have hrest : Spelled (tokens ++ [.closing]) (front ++ (behind ++ [')'])) :=
    hspelled.append (.single hbehind hclosing)
  refine ⟨_, .nested hderives, ?_⟩
  rw [List.append_assoc]
  exact .cons hspaces hopening hrest

private theorem ofText?_joinedText {first second : String}
    {left right : Formula} (hfirst : ofText? first = some left)
    (hsecond : ofText? second = some right) :
    ofText? (joinedText first second) = some (.and left right) := by
  have hand : Token.and.Spells ['&', '&'] := .symbol rfl
  obtain ⟨front, hleft, hfront⟩ :=
    (writes_of_ofText? hfirst).exists_nested isSpaces_nil
  obtain ⟨back, hright, hback⟩ :=
    (writes_of_ofText? hsecond).exists_nested isSpaces_blank
  have hderives :
      Derives .disjunction (.and left right) (front ++ .and :: back) :=
    .one (.and (.single (.plain (.alone hleft))) (.plain (.alone hright)))
  have hspelled := hfront.append (.cons isSpaces_blank hand hback)
  refine ofText?_of_writes ⟨_, _, [], hderives, hspelled, isSpaces_nil, ?_⟩
  simp [joinedText]

end Formula

/-! ## Rows of filters at work -/

namespace Filter

private theorem performAll_countAction (kind : ElementKind) (m n : Nat)
    (task : Task) :
    (task.performAll (countAction kind m)).performAll (countAction kind n) =
      task.performAll (countAction kind (m + n)) := by
  have hcount : ∀ name,
      (task.perform (.count "filter" name m)).perform (.count "filter" name n) =
      task.perform (.count "filter" name (m + n)) := fun name =>
    congrArg (fun counters => { task with counters })
      (Counters.increment_increment ..)
  cases kind with
  | edge => exact hcount _
  | vertex =>
      match m, n with
      | 0, n => rw [Nat.zero_add]; rfl
      | m + 1, 0 => rfl
      | m + 1, n + 1 => exact hcount _

private theorem asks_split (kind : ElementKind) (test : Json → Bool)
    (pair : Pair) :
    written (asks kind test pair) =
      [{ pair with value := filtered kind test pair.value }] ∧
      aside (asks kind test pair) =
        countAction kind (failures kind test pair.value) := by
  rw [asks]
  generalize failures kind test pair.value = n
  cases kind <;> cases n <;> exact ⟨rfl, rfl⟩

/-- A name for a stage and a script that can be read. -/
structure Scripted where
  name : String
  source : String
  formula : Formula
  reads : Formula.ofText? source = some formula

namespace Scripted

def criterion (filter : Scripted) : Criterion := .scripted filter.source

def compiled (filter : Scripted) : Criterion.Compiled := .formula filter.formula

private theorem compile_criterion (filter : Scripted) :
    filter.criterion.compile = .ok filter.compiled := by
  rw [criterion, Criterion.compile, filter.reads]
  rfl

def stage (kind : ElementKind) (filter : Scripted) : Stage :=
  Filter.stage filter.name kind filter.criterion

def working (kind : ElementKind) (filter : Scripted)
    (view : Options) : FusedStage :=
  ⟨function, readyState kind filter.compiled, view⟩

private theorem onMap_working (kind : ElementKind) (filter : Scripted)
    (view : Options) {pair : Pair} (hvalue : pair.value.Canonical) :
    (filter.working kind view).onMap pair =
      { actions := asks kind filter.formula.holds pair, failure? := none
        stage := filter.working kind view } := by
  change (filter.working kind view).replyOf
      (map view (readyState kind filter.compiled) pair) = _
  rw [map_eq kind filter.compiled view hvalue]
  rfl

end Scripted

def allHold (filters : List Scripted) (element : Json) : Bool :=
  filters.all fun filter => filter.formula.holds element

private theorem allHold_singleton (filter : Scripted) :
    allHold [filter] = filter.formula.holds := by
  funext element
  simp [allHold]

def row (kind : ElementKind) (views : Nat → Options)
    (filters : List Scripted) : FusedRun :=
  filters.mapIdx fun step filter => filter.working kind (views step)

section

variable (kind : ElementKind) (views : Nat → Options) {filters : List Scripted}

private theorem row_cons (filter : Scripted) (rest : List Scripted) :
    row kind views (filter :: rest) =
      filter.working kind (views 0) ::
      row kind (fun step => views (step + 1)) rest :=
  List.mapIdx_cons

private theorem row_ne_nil
    (hne : filters ≠ []) : row kind views filters ≠ [] := by
  simpa [row] using hne

private theorem pass_row (hne : filters ≠ []) {pair : Pair}
    (hvalue : pair.value.Canonical) : (row kind views filters).Passes pair ∧
      ((row kind views filters).pass pair).1 = row kind views filters ∧
      ∀ task : Task, task.performAll ((row kind views filters).pass pair).2 =
        task.performAll (asks kind (allHold filters) pair) := by
  induction filters generalizing views pair with
  | nil => exact absurd rfl hne
  | cons filter rest ih =>
      have hreply := filter.onMap_working kind (views 0) hvalue
      rw [row_cons]
      by_cases hrest : rest = []
      · subst hrest
        have hnil : row kind (fun step => views (step + 1)) [] = [] := rfl
        simp only [hnil, FusedRun.Passes, FusedRun.pass, hreply,
          allHold_singleton, List.isEmpty_nil, if_true]
        exact ⟨⟨trivial, fun hne => absurd rfl hne⟩, trivial, fun _ => trivial⟩
      · obtain ⟨hwritten, haside⟩ := asks_split kind filter.formula.holds pair
        let next :
            Pair :=
          { pair with value := filtered kind filter.formula.holds pair.value }
        have hnext : next.value.Canonical := canonical_filtered hvalue
        obtain ⟨hpasses, hrun, htask⟩ :=
          ih (fun step => views (step + 1)) hrest hnext
        have hempty : (row kind (fun step => views (step + 1)) rest).isEmpty =
            false := by
          simpa using row_ne_nil kind _ hrest
        simp only [FusedRun.Passes, FusedRun.pass, hreply, hempty,
          hwritten, haside, Bool.false_eq_true, if_false]
        refine ⟨⟨trivial, fun _ => ⟨by simp, by simpa using hpasses⟩⟩,
          congrArg (filter.working kind (views 0) :: ·) hrun, fun task => ?_⟩
        have hvalues :=
          filtered_filtered filter.formula.holds (allHold rest) kind pair.value
        have hcounts := failures_add_failures filter.formula.holds
          (allHold rest) kind pair.value
        rw [Task.performAll_append, htask, asks, asks, Task.performAll_append,
          performAll_countAction, Task.performAll_append]
        simp only [next, hvalues, hcounts]
        rfl

def asksAll (kind : ElementKind) (test : Json → Bool)
    (pairs : List Pair) : List Action :=
  pairs.flatMap fun pair => asks kind test pair ++ [.progress]

private theorem mapAll_row (hne : filters ≠ []) {pairs : List Pair}
    (hvalues : ∀ pair ∈ pairs, pair.value.Canonical) (task : Task) :
    (row kind views filters).mapAll pairs task = (none, row kind views filters,
      task.performAll (asksAll kind (allHold filters) pairs)) := by
  induction pairs generalizing task with
  | nil => rfl
  | cons pair rest ih =>
      obtain ⟨hvalue, hrest⟩ := List.forall_mem_cons.1 hvalues
      obtain ⟨hpasses, hrun, htask⟩ := pass_row kind views hne hvalue
      rw [FusedRun.mapAll,
        FusedRun.map_eq_pass (row_ne_nil kind views hne) hpasses, hrun,
        Context.performAll_task, htask]
      simp only [Context.perform_task, ih hrest, asksAll, List.flatMap_cons,
        List.append_assoc, Task.performAll_append]
      rfl

private theorem cleanupFrom_row (filters : List Scripted) (step : Nat)
    (task : Task) :
    FusedRun.cleanupFrom (row kind views filters).length step
      (row kind views filters) task =
      (none, row kind views filters, task) := by
  induction filters generalizing views step with
  | nil => rfl
  | cons filter rest ih =>
      have hreply : (filter.working kind (views 0)).onCleanup =
          { actions := [], failure? := none,
            stage := filter.working kind (views 0) } := rfl
      rw [row_cons, List.length_cons]
      by_cases hrest : rest = []
      · subst hrest
        exact FusedRun.cleanupFrom_singleton rfl 0 step task
      · rw [FusedRun.cleanupFrom_cons (row_ne_nil kind _ hrest) rfl
          (by simp [hreply]) (by simp [hreply, FusedRun.PassesAll])]
        simp only [hreply, written_nil, aside_nil, FusedRun.passAll,
          List.nil_append, Context.performAll_nil, ih]

private theorem setupFrom_filters
    (hoptions : ∀ step filter, filters[step]? = some filter →
    Carries (views step) kind filter.criterion) (step : Nat) (task : Task) :
    FusedRun.setupFrom step (filters.mapIdx fun step _ =>
      ⟨function, function.start, views step⟩) task =
      (none, row kind views filters, task) := by
  induction filters generalizing views step with
  | nil => rfl
  | cons filter rest ih =>
      have hreply : FusedStage.onSetup ⟨function, function.start, views 0⟩ =
          { actions := [], failure? := none,
            stage := filter.working kind (views 0) } := by
        have hsetup :=
          setup_eq (hoptions 0 filter rfl) filter.compile_criterion {}
        change FusedStage.replyOf ⟨function, _,
            views 0⟩ (setup (views 0) {}) = _
        rw [hsetup]
        rfl
      have hrest := ih (fun step => views (step + 1))
        (fun n other h => hoptions (n + 1) other h) (step + 1)
      rw [List.mapIdx_cons, FusedRun.setupFrom, FusedStage.setup_eq _ rfl,
        row_cons]
      simp only [hreply, Relay.performAll, List.foldl_nil,
        FusedRun.relayFor, hrest]

end

/-! ## Rows of filters as jobs -/

/-- The job of some stages, with its maps fused, does this to a task. -/
def Does (assembly : Assembly) (ordinal : Nat) (stages : List Stage)
    (pairs : List Pair) (task after : Task) : Prop :=
  ∃ job functions, assembly.assemble { ordinal, stages } = .ok job ∧
    Registry.builtin.findMaps job.maps = .ok functions ∧
    (FusedRun.ofFunctions functions job.options).runAll pairs task = .ok after

private theorem findMaps_filters (filters : List Scripted) :
    Registry.builtin.findMaps (filters.map fun _ => functionName) =
      .ok (filters.map fun _ => function) := by
  have hfilter : Registry.builtin.findMap functionName = .ok function := rfl
  induction filters with
  | nil => rfl
  | cons filter rest ih =>
      simp only [List.map_cons, Registry.findMaps, hfilter, ih]

private theorem ofFunctions_filters (filters : List Scripted)
    (options : Options) :
    FusedRun.ofFunctions (filters.map fun _ => function) options =
      filters.mapIdx fun step _ =>
        ⟨function, function.start, options.view step⟩ := by
  refine List.ext_getElem? fun step => ?_
  rw [FusedRun.ofFunctions, List.getElem?_mapIdx, List.getElem?_mapIdx,
    List.getElem?_map, Option.map_map]
  rfl

private theorem assemble_filters (assembly : Assembly) (ordinal : Nat)
    (kind : ElementKind) {filters : List Scripted} (hne : filters ≠ []) :
    assembly.assemble { ordinal, stages := filters.map (Scripted.stage kind) } =
      .ok
        (assembly.jobOf
          { ordinal, stages := filters.map (Scripted.stage kind) }) := by
  have hnamed : Text.isBlankText functionName = false := by decide +kernel
  refine Assembly.assemble_of_checked
    (by simpa using hne) (List.forall_mem_map.2 fun filter _ => ?_)
  simp [Stage.check, Scripted.stage, Filter.stage, hnamed]

/-- The options of a chain that replace those of a filter at the first step are
not set. -/
def HasNoRivals (options : Options) : Prop :=
  ∀ name ∈ [elementOption, criterionOption], ∀ zeros > 0,
    options.get? (Options.paddedName name zeros 0) = none

private theorem carries_view {assembly : Assembly} {kind : ElementKind}
    {filters : List Scripted} (hword : filters.length ≤ 2 ^ 64)
    (hrivals : HasNoRivals assembly.options) (ordinal : Nat) {step : Nat}
    {filter : Scripted} (hfilter : filters[step]? = some filter) :
    let block : Block := { ordinal, stages := filters.map (Scripted.stage kind) }
    Carries ((assembly.optionsOf block).view step) kind filter.criterion := by
  intro block
  have hstep : step < 2 ^ 64 := by
    have := (List.getElem?_eq_some_iff.1 hfilter).1
    omega
  have hstage : block.stages[step]? = some (filter.stage kind) := by
    simp [block, hfilter]
  obtain ⟨hkind, hcriterion⟩ := get?_options kind filter.criterion
  have hseen : ∀ name ∈ [elementOption, criterionOption], ∀ value,
      (filter.stage kind).options.get? name = some value →
      ((assembly.optionsOf block).view step).get? name = some value :=
    fun name hname value hvalue => Assembly.get?_view_of_own hstep hstage hvalue
      fun _ => hrivals name hname
  exact carries_of_get? (hseen _ (by simp) _ hkind)
    (hseen _ (by simp) _ hcriterion) (by rintro _ ⟨⟩)

private theorem does_filters {assembly : Assembly}
    (hrivals : HasNoRivals assembly.options) (ordinal : Nat)
    (kind : ElementKind) {filters : List Scripted} (hne : filters ≠ [])
    (hword : filters.length ≤ 2 ^ 64) {pairs : List Pair}
    (hvalues : ∀ pair ∈ pairs, pair.value.Canonical) (task : Task) :
    Does assembly ordinal (filters.map (Scripted.stage kind)) pairs task
      (task.performAll (asksAll kind (allHold filters) pairs)) := by
  have hmaps :
      (assembly.jobOf
        { ordinal, stages := filters.map (Scripted.stage kind) }).maps =
      filters.map fun _ => functionName := by
    rw [Job.maps, Assembly.jobOf, List.map_map]
    rfl
  refine ⟨_, filters.map fun _ => function,
    assemble_filters assembly ordinal kind hne, ?_, ?_⟩
  · rw [hmaps]
    exact findMaps_filters filters
  · have hsetup := setupFrom_filters kind
      (assembly.optionsOf
        { ordinal, stages := filters.map (Scripted.stage kind) }).view
      (fun step filter hfilter =>
        carries_view hword hrivals ordinal hfilter) 0 task
    rw [ofFunctions_filters, FusedRun.runAll, FusedRun.setup]
    simp only [Assembly.jobOf, hsetup, mapAll_row kind _ hne hvalues,
      FusedRun.cleanup, cleanupFrom_row]

/-- Two filters with scripts, in either order, do to a task exactly what a
single one does whose script joins the two in brackets: the same records, the
same counters. -/
theorem joined_filter {assembly : Assembly}
    (hrivals : HasNoRivals assembly.options) (ordinal : Nat)
    (kind : ElementKind) {first second : String} {left right : Formula}
    (hfirst : Formula.ofText? first = some left)
    (hsecond : Formula.ofText? second = some right)
    (before behind joined : String) {pairs : List Pair}
    (hvalues : ∀ pair ∈ pairs, pair.value.Canonical) (task : Task) :
    let filter (name source : String) : Stage := stage name kind (.scripted source)
    let after := task.performAll
      (asksAll kind (fun element => left.holds element &&
        right.holds element) pairs)
    Does assembly ordinal [filter before first,
      filter behind second] pairs task after ∧
      Does assembly ordinal [filter behind second,
        filter before first] pairs task after ∧
      Does assembly ordinal [filter joined (Formula.joinedText first second)]
        pairs task after := by
  intro filter after
  let one : Scripted := ⟨before, first, left, hfirst⟩
  let other : Scripted := ⟨behind, second, right, hsecond⟩
  let both : Scripted :=
    ⟨joined, _, .and left right, Formula.ofText?_joinedText hfirst hsecond⟩
  have hrow : ∀ filters : List Scripted, filters ≠ [] →
      filters.length ≤ 2 ^ 64 →
      allHold filters = (fun element => left.holds element &&
        right.holds element) →
      Does assembly ordinal (filters.map (Scripted.stage kind)) pairs task
        after := by
    intro filters hne hword htest
    have hdoes := does_filters hrivals ordinal kind hne hword hvalues task
    rwa [htest] at hdoes
  have honeother : allHold [one, other] = fun element => left.holds element &&
      right.holds element := by
    funext element
    simp [allHold, one, other]
  have hotherone : allHold [other, one] = fun element => left.holds element &&
      right.holds element := by
    funext element
    simp [allHold, one, other, Bool.and_comm]
  have hboth : allHold [both] = fun element => left.holds element &&
      right.holds element := by
    funext element
    rw [allHold_singleton]
    rfl
  exact ⟨hrow [one, other] (by simp) (by simp) honeother, hrow [other,
    one] (by simp) (by simp) hotherone, hrow [both] (by simp) (by simp) hboth⟩

theorem joined_filter_paths :
    let assembly : Assembly :=
      { Assembly.paddedAssembly with options := .ofList [("filter.element-0",
        "edge")] }
    let filter (name source : String) :
    Stage := stage name .vertex (.scripted source)
    let vertex (count : Nat) : Pair := ⟨.null, .ofFields [("paths", .ofNat count)]⟩
    let pairs := [vertex 3, vertex 7, vertex 9]
    let after : Task :=
      { emitted := #[vertex 0, vertex 0, vertex 9]
        counters := .ofList [("filter", .ofList [("VERTICES_FILTERED", 2)])]
        progress := 3 }
    HasNoRivals assembly.options ∧ (∀ pair ∈ pairs, pair.value.Canonical) ∧
      Does assembly 0 [filter "a" "paths > 5 ", filter "b" " paths != 7"] pairs
        {} after ∧
      Does assembly 0 [filter "b" " paths != 7", filter "a" "paths > 5 "] pairs
        {} after ∧
      Does assembly 0 [filter "c" "(paths > 5 ) && ( paths != 7)"] pairs
        {} after := by
  intro assembly filter vertex pairs after
  have hrivals : HasNoRivals assembly.options := by
    intro name hname zeros hzeros
    by_contra hset
    obtain ⟨value, hvalue⟩ := Option.ne_none_iff_exists'.1 hset
    have honly : assembly.options.toList = [("filter.element-0", "edge")] := rfl
    have hmem := SortedMap.get?_eq_some_iff.1 hvalue
    rw [honly, List.mem_singleton, Prod.mk.injEq] at hmem
    have hlength := congrArg (fun text => text.toList.length) hmem.1
    have hdigit : (Text.natChars 0).length = 1 := rfl
    rcases List.mem_pair.1 hname with rfl | rfl
    · simp [Options.paddedName, elementOption, hdigit] at hlength
      omega
    · simp [Options.paddedName, criterionOption, hdigit] at hlength
  have hvalues : ∀ pair ∈ pairs, pair.value.Canonical := by
    simp [pairs, vertex, Json.ofFields, Json.ofNat, Json.ofInt, Json.Canonical,
      Json.CanonicalFields, Assoc.Sorted]
  have hfirst : Formula.ofText? "paths > 5 " =
      some (.compare (.path "paths") .gt (.literal (.ofNat 5))) := by
    decide +kernel
  have hsecond : Formula.ofText? " paths != 7" =
      some (.compare (.path "paths") .ne (.literal (.ofNat 7))) := by
    decide +kernel
  have hdoes :=
    joined_filter hrivals 0 .vertex hfirst hsecond "a" "b" "c" hvalues {}
  have hafter : ({} : Task).performAll (asksAll .vertex (fun element =>
      (Formula.compare (.path "paths") .gt (.literal (.ofNat 5))).holds
        element &&
        (Formula.compare (.path "paths") .ne (.literal (.ofNat 7))).holds
          element) pairs) = after := by
    decide +kernel
  have hjoined : Formula.joinedText "paths > 5 " " paths != 7" =
      "(paths > 5 ) && ( paths != 7)" := rfl
  simp only [hafter, hjoined] at hdoes
  exact ⟨hrivals, hvalues, hdoes⟩

end Filter

end JobChain
