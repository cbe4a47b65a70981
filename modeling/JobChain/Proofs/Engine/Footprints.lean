import JobChain.Proofs.Engine.Jobs
import JobChain.Proofs.Engine.Likeness
import JobChain.Proofs.Store.SharedListings

/-!
# Footprints of jobs

The engine works on a store by a few operations, and it is told once with which
paths a job uses them. What holds of each operation then holds of a whole job:
which files stay as they were, and that the job goes alike on two stores that
share what it uses.
-/

namespace JobChain

open Store

/-! ## What stays -/

namespace Store

/-- A store in which no files have changed but at some places. -/
structure Settles (touched : Place → Prop) (before after : Store) : Prop where
  here_eq : after.here = before.here
  isTree : IsTree before → IsTree after
  fileAt?_eq : ∀ place, ¬touched place →
      after.fileAt? place = before.fileAt? place

variable {touched : Place → Prop} {before between after : Store}

namespace Settles

theorem refl (store : Store) : Settles touched store store :=
  ⟨rfl, id, fun _ _ => rfl⟩

theorem mono {touched' : Place → Prop} (h : Settles touched before after)
    (himp : ∀ place, touched place → touched' place) :
    Settles touched' before after :=
  ⟨h.here_eq, h.isTree, fun place hplace => h.fileAt?_eq place fun htouched =>
    hplace (himp place htouched)⟩

theorem trans (h : Settles touched before between)
    (h' : Settles touched between after) : Settles touched before after where
  here_eq := h'.here_eq.trans h.here_eq
  isTree htree := h'.isTree (h.isTree htree)
  fileAt?_eq place hplace :=
    (h'.fileAt?_eq place hplace).trans (h.fileAt?_eq place hplace)

end Settles

theorem Grows.settles (h : Grows before after) : Settles touched before after :=
  ⟨h.here_eq, h.isTree, fun place _ => h.fileAt?_eq place⟩

theorem ChangesAt.settles
    (h : ChangesAt before after touched) : Settles touched before after :=
  ⟨h.here_eq, h.isTree, fun place hplace => fileAt?_congr (h.kept place hplace)⟩

private theorem outcome_load (format : RecordFormat) (path : Path)
    (store : Store) : (outcome (format.load path) store).2 = store := by
  have hask : outcome (ask fun store => store.read path) store =
      ((store.read path).mapError IoError.store, store) := rfl
  unfold RecordFormat.load
  rw [outcome_bind, hask]
  cases store.read path <;> rfl

private theorem settles_save (format : RecordFormat) (path : Path)
    (pairs : List Pair) (store : Store) :
    Settles (fun place => place = placeOf store.here path) store
      (outcome (format.save path pairs) store).2 := by
  have hwrite : ∀ {between : Store}, Grows store between →
      Settles (fun place => place = placeOf store.here path) store
        (outcome (change fun store =>
          store.write path (.text (format.write pairs))) between).2 := by
    intro between hgrows
    have hchange :=
      change_write_refills path (.text (format.write pairs)) between
    rw [hgrows.here_eq] at hchange
    exact hgrows.settles.trans hchange.toChangesAt.settles
  unfold RecordFormat.save
  split
  · rename_i directory _
    split
    · have hgrows := (makeDirectories_spec directory store).1
      rw [outcome_bind]
      rcases hmade : outcome (makeDirectories directory) store
        with ⟨_ | _, between⟩
      · rw [show makeDirectories directory store = _ from hmade] at hgrows
        exact hgrows.settles
      · rw [show makeDirectories directory store = _ from hmade] at hgrows
        exact hwrite hgrows
    · exact hwrite (.refl store)
  · exact hwrite (.refl store)

end Store

structure Store.Twins (scope : Scope)
    (differ : Place → Content → Content → Prop) (store other : Store) :
    Prop extends Shares scope differ store other where
  isTree : IsTree store
  isTree' : IsTree other

theorem Store.Twins.mono {scope : Scope}
    {differ differ' : Place → Content → Content → Prop} {store other : Store}
    (h : Twins scope differ store other)
    (hdiffer : ∀ place content content', differ place content content' →
      differ' place content content') : Twins scope differ' store other :=
  ⟨h.toShares.mono hdiffer, h.isTree, h.isTree'⟩

abbrev Store.SameIn (scope : Scope) : Store → Store → Prop :=
  Twins scope fun _ _ _ => False

theorem Store.Twins.self {scope : Scope}
    {differ : Place → Content → Content → Prop} {store : Store}
    (h : Twins scope differ store store) : SameIn scope store store where
  here_eq := h.here_eq
  here_eq' := h.here_eq'
  node _ _ := .inl rfl
  kept := h.kept
  kept' := h.kept'
  isTree := h.isTree
  isTree' := h.isTree'

/-! ## Work with a footprint -/

/-- What work may do on a store, and with which paths. -/
structure Footprint where
  lists : InputSpec → Prop
  reads : Path → Prop
  makes : Path → Prop
  writes : Path → Prop
  clears : Path → Prop

namespace Effort

def list (input : InputSpec) (context : String) : Effort (List Path) := do
  (Effort.ofExcept IoError.failure
    (input.files (← getThe Store))).within context

/-- Work that keeps to a footprint, with what is known of its answer. -/
inductive KeepsTo (print : Footprint) : {α : Type} → Effort α → (α → Prop) →
    Prop where
  | pure {α : Type} {answer : α} {known : α → Prop} (h : known answer) :
      KeepsTo print (pure answer) known
  | throw {α : Type} {known : α → Prop} (failure : Failure) :
      KeepsTo print (throw failure : Effort α) known
  | ofExcept {ε α : Type} (failure : ε → Failure) (result : Except ε α) :
      KeepsTo print (ofExcept failure result) fun _ => True
  | bind {α β : Type} {work : Effort α} {next : α → Effort β} {known : α → Prop}
      {known' : β → Prop} (h : KeepsTo print work known)
      (hnext : ∀ answer, known answer → KeepsTo print (next answer) known') :
      KeepsTo print (work >>= next) known'
  | within {α : Type} {work : Effort α}
      {known : α → Prop} (h : KeepsTo print work known) (context : String) :
      KeepsTo print (work.within context) known
  | attempt {α : Type} {work : Effort α}
      {known : α → Prop} (h : KeepsTo print work known) :
      KeepsTo print (Engine.attempt work) fun _ => True
  | list {input : InputSpec} (h : print.lists input) (context : String) :
      KeepsTo print (list input context) fun paths => ∀ path ∈ paths,
      input.Finds path
  | load {format : RecordFormat} {path : Path} (h : print.reads path) :
      KeepsTo print (ofStoreM (format.load path)) fun _ => True
  | make {path : Path} (h : print.makes path) :
      KeepsTo print (ofStoreM (makeDirectories path)) fun _ => True
  | write {path : Path} {content : Content} (h : print.writes path) :
      KeepsTo print (ofStoreM (change fun store => store.write path content))
        fun _ => True
  | save {format : RecordFormat} {path : Path}
      {pairs : List Pair} (h : print.writes path) :
      KeepsTo print (ofStoreM (format.save path pairs)) fun _ => True
  | clear {path : Path} (h : print.clears path) :
      KeepsTo print (ofStoreM (delete path true)) fun _ => True

end Effort

structure Footprint.IsPartOf (print print' : Footprint) : Prop where
  lists : ∀ input, print.lists input → print'.lists input
  reads : ∀ path, print.reads path → print'.reads path
  makes : ∀ path, print.makes path → print'.makes path
  writes : ∀ path, print.writes path → print'.writes path
  clears : ∀ path, print.clears path → print'.clears path

def Footprint.touches (print : Footprint) (here place : Place) : Prop :=
  (∃ path, print.writes path ∧ place = placeOf here path) ∨
    ∃ path, print.clears path ∧ placeOf here path <+: place

namespace Effort.KeepsTo

variable {print : Footprint} {α : Type} {work : Effort α} {known : α → Prop}

theorem mono {print' : Footprint} (h : KeepsTo print work known)
    (hpart : print.IsPartOf print') : KeepsTo print' work known := by
  induction h with
  | pure hknown => exact .pure hknown
  | throw failure => exact .throw failure
  | ofExcept failure result => exact .ofExcept failure result
  | bind _ _ ih ihnext => exact .bind ih ihnext
  | within _ context ih => exact .within ih context
  | attempt _ ih => exact .attempt ih
  | list hlists context => exact .list (hpart.lists _ hlists) context
  | load hreads => exact .load (hpart.reads _ hreads)
  | make hmakes => exact .make (hpart.makes _ hmakes)
  | write hwrites => exact .write (hpart.writes _ hwrites)
  | save hwrites => exact .save (hpart.writes _ hwrites)
  | clear hclears => exact .clear (hpart.clears _ hclears)

theorem settles (h : KeepsTo print work known) {store : Store}
    (htree : IsTree store) :
    Settles (print.touches store.here) store (outcome work store).2 ∧
      ∀ answer, (outcome work store).1 = .ok answer → known answer := by
  have hmap : ∀ {ε ε' β : Type} {failure : ε → ε'} {result : Except ε β}
      {answer : β}, result.mapError failure = .ok answer →
      result = .ok answer := by
    intro ε ε' β failure result answer hresult
    cases result with
    | error error => cases hresult
    | ok found => simpa [Except.mapError] using hresult
  induction h generalizing store with
  | pure hknown =>
      exact ⟨.refl store, fun _ hanswer => Except.ok.inj hanswer ▸ hknown⟩
  | throw failure => exact ⟨.refl store, fun _ hanswer => nomatch hanswer⟩
  | ofExcept failure result => exact ⟨.refl store, fun _ _ => trivial⟩
  | @bind _ _ work next _ _ _ _ ih ihnext =>
      obtain ⟨hsettles, hknown⟩ := ih htree
      rw [outcome_bind]
      generalize outcome work store = result at hsettles hknown
      obtain ⟨_ | answer, between⟩ := result
      · exact ⟨hsettles, fun _ hanswer => nomatch hanswer⟩
      · obtain ⟨hlater, hlast⟩ :=
          ihnext answer (hknown answer rfl) (hsettles.isTree htree)
        rw [hsettles.here_eq] at hlater
        exact ⟨hsettles.trans hlater, hlast⟩
  | within _ context ih =>
      exact ⟨(ih htree).1,
        fun answer hanswer => (ih htree).2 answer (hmap hanswer)⟩
  | attempt _ ih => exact ⟨(ih htree).1, fun _ _ => trivial⟩
  | list _ context =>
      exact ⟨.refl store,
        fun paths hpaths => InputSpec.finds_of_files htree (hmap (hmap hpaths))⟩
  | @load format path _ =>
      refine ⟨?_, fun _ _ => trivial⟩
      change Settles _ store (outcome (format.load path) store).2
      rw [outcome_load]
      exact .refl store
  | @make path _ =>
      exact ⟨(makeDirectories_spec path store).1.settles, fun _ _ => trivial⟩
  | @write path content hwrites =>
      refine ⟨(change_write_refills path content store).toChangesAt.settles.mono
        ?_, fun _ _ => trivial⟩
      exact fun place hplace => .inl ⟨path, hwrites, hplace⟩
  | @save format path pairs hwrites =>
      refine ⟨(settles_save format path pairs store).mono ?_,
        fun _ _ => trivial⟩
      exact fun place hplace => .inl ⟨path, hwrites, hplace⟩
  | @clear path hclears =>
      refine ⟨(delete_shrinks path store).toChangesAt.settles.mono ?_,
        fun _ _ => trivial⟩
      exact fun place hplace => .inr ⟨path, hclears, hplace⟩

end Effort.KeepsTo

/-! ## The same work on two stores -/

/-- What two stores share holds all that work with a footprint changes. -/
structure Footprint.ChangesIn (print : Footprint) (scope : Scope) : Prop where
  makes : ∀ path, print.makes path → path.text = "" ∨ scope.Covers path
  writes : ∀ path, print.writes path → scope.Covers path
  clears : ∀ path, print.clears path → scope.Covers path ∧ scope.Holds path

/-- What two stores share holds all that work with a footprint uses, and what it
reads is the same. -/
structure Footprint.LiesIn (print : Footprint) (scope : Scope)
    (differ : Place → Content → Content → Prop) :
    Prop extends print.ChangesIn scope where
  lists : ∀ input, print.lists input → scope.Covers input.location ∧
    ∀ name, scope.Admits (placeOf scope.here input.location ++ [name])
  reads : ∀ path, print.reads path → scope.Covers path ∧
    ∀ content content', ¬differ (placeOf scope.here path) content content'

namespace Effort.KeepsTo

variable {print : Footprint} {α : Type} {work : Effort α} {known : α → Prop}
  {scope : Scope} {differ : Place → Content → Content → Prop}
  {store other : Store}

private theorem raise (h : KeepsTo print work known)
    (htwins : Twins scope differ store other)
    (htogether : Together (Shares scope differ) Eq (outcome work store)
      (outcome work other)) :
    Together (Twins scope differ) (fun answer answer' => answer' = answer ∧
      known answer) (outcome work store) (outcome work other) := by
  obtain ⟨hsettles, hknown⟩ := h.settles htwins.isTree
  obtain ⟨hsettles', -⟩ := h.settles htwins.isTree'
  refine ⟨?_, htogether.stores, hsettles.isTree htwins.isTree,
    hsettles'.isTree htwins.isTree'⟩
  obtain ⟨hanswers, -⟩ := htogether
  generalize (outcome work store).1 = result at hknown hanswers
  generalize (outcome work other).1 = result' at hanswers
  cases hanswers with
  | ok heq => exact .ok ⟨heq.symm, hknown _ rfl⟩
  | error error => exact .error error

theorem together (h : KeepsTo print work known)
    (hprint : print.LiesIn scope differ)
    (htwins : Twins scope differ store other) :
    Together (Twins scope differ) (fun answer answer' => answer' = answer ∧
      known answer) (outcome work store) (outcome work other) := by
  induction h generalizing store other with
  | pure hknown => exact .pure ⟨rfl, hknown⟩ htwins
  | throw failure => exact .throw htwins failure
  | ofExcept failure result =>
      cases result with
      | ok answer => exact ⟨.ok ⟨rfl, trivial⟩, htwins⟩
      | error error => exact ⟨.error _, htwins⟩
  | bind _ _ ih ihnext =>
      refine (ih htwins).bind ?_
      rintro answer _ between between' ⟨rfl, hknown⟩ hbetween
      exact ihnext _ hknown hbetween
  | within _ context ih => exact (ih htwins).within context
  | attempt _ ih =>
      obtain ⟨hanswers, hstores⟩ := (ih htwins).attempt
      refine ⟨hanswers.imp fun result result' hlike => ⟨?_, trivial⟩, hstores⟩
      cases hlike with
      | ok heq => rw [heq.1]
      | error error => rfl
  | @list input hlists context =>
      refine KeepsTo.raise (.list hlists context) htwins ?_
      obtain ⟨hcovers, hinner⟩ := hprint.lists _ hlists
      have hfiles : input.files other = input.files store :=
        htwins.files_eq htwins.isTree htwins.isTree' hcovers hinner
      refine ⟨?_, htwins.toShares⟩
      change Matches Eq
        (((input.files store).mapError IoError.failure).mapError _)
        (((input.files other).mapError IoError.failure).mapError _)
      rw [hfiles]
      cases input.files store with
      | ok paths => exact .ok rfl
      | error error => exact .error _
  | load hreads =>
      obtain ⟨hcovers, hsame⟩ := hprint.reads _ hreads
      refine KeepsTo.raise (.load hreads) htwins (Together.ofStoreM ?_)
      exact htwins.load hcovers
        (fun content content' hdiffer => absurd hdiffer (hsame _ _))
        fun _ => rfl
  | make hmakes =>
      exact KeepsTo.raise (.make hmakes) htwins
        (htwins.makeDirectories (hprint.makes _ hmakes)).ofStoreM
  | write hwrites =>
      exact KeepsTo.raise (.write hwrites) htwins
        (htwins.change
          (htwins.write (hprint.writes _ hwrites) (.inl rfl))).ofStoreM
  | save hwrites =>
      exact KeepsTo.raise (.save hwrites) htwins
        (htwins.save (hprint.writes _ hwrites) (.inl rfl)).ofStoreM
  | clear hclears =>
      obtain ⟨hcovers, hholds⟩ := hprint.clears _ hclears
      exact KeepsTo.raise (.clear hclears) htwins
        (htwins.delete hcovers hholds true).ofStoreM

theorem keeps (h : KeepsTo print work known) (hprint : print.ChangesIn scope)
    (hsame : SameIn scope store store) :
    SameIn scope (outcome work store).2 (outcome work store).2 := by
  have hraise : ∀ {α : Type} {work : Effort α} {known : α → Prop}
      {store : Store}, KeepsTo print work known → SameIn scope store store →
        Together (Shares scope fun _ _ _ => False) Eq (outcome work store)
          (outcome work store) →
          SameIn scope (outcome work store).2 (outcome work store).2 :=
    fun h hsame htogether =>
      ⟨htogether.stores, (h.settles hsame.isTree).1.isTree hsame.isTree,
      (h.settles hsame.isTree).1.isTree hsame.isTree⟩
  induction h generalizing store with
  | pure _ => exact hsame
  | throw _ => exact hsame
  | ofExcept _ _ => exact hsame
  | @bind _ _ work next _ _ hwork _ ih ihnext =>
      have hbetween := ih hsame
      have hknown := (hwork.settles hsame.isTree).2
      rw [outcome_bind]
      generalize outcome work store = result at hbetween hknown
      obtain ⟨_ | answer, between⟩ := result
      · exact hbetween
      · exact ihnext answer (hknown answer rfl) hbetween
  | within _ _ ih => exact ih hsame
  | attempt _ ih => exact ih hsame
  | list _ _ => exact hsame
  | @load format path _ =>
      change SameIn scope (outcome (format.load path) store).2
          (outcome (format.load path) store).2
      rwa [outcome_load]
  | make hmakes =>
      exact hraise (.make hmakes) hsame
        (hsame.makeDirectories (hprint.makes _ hmakes)).ofStoreM
  | write hwrites =>
      exact hraise (.write hwrites) hsame
        (hsame.change
          (hsame.write (hprint.writes _ hwrites) (.inl rfl))).ofStoreM
  | save hwrites =>
      exact hraise (.save hwrites) hsame
        (hsame.save (hprint.writes _ hwrites) (.inl rfl)).ofStoreM
  | clear hclears =>
      obtain ⟨hcovers, hholds⟩ := hprint.clears _ hclears
      exact hraise (.clear hclears) hsame
        (hsame.delete hcovers hholds true).ofStoreM

end Effort.KeepsTo

/-! ## Tasks -/

namespace Engine

open Effort (KeepsTo)

def shuffleDirectory (job : Job) : Path :=
  job.output.location.child temporaryDirectory

def IsOutputPath (job : Job) (path : Path) : Prop :=
  ∃ output side task format, formatFor? job output = some format ∧
    path = job.output.location.child (outputName output side task format)

def tasksPrint (job : Job) : Footprint where
  lists _ := False
  reads path := ∃ index, path = shufflePath (shuffleDirectory job) index
  makes path := path = shuffleDirectory job
  writes path := IsOutputPath job path ∨
    ∃ index, path = shufflePath (shuffleDirectory job) index
  clears path := path = shuffleDirectory job

def jobPrint (job : Job) : Footprint where
  lists input := input = job.input
  reads path := job.input.Finds path ∨ (tasksPrint job).reads path
  makes path := path = job.output.location ∨ (tasksPrint job).makes path
  writes path := path = job.output.location.child successMark ∨
    (tasksPrint job).writes path
  clears := (tasksPrint job).clears

def trialPrint (job : Job) : Footprint :=
  { jobPrint job with writes := (tasksPrint job).writes }

variable {registry : Registry} {job : Job}

private theorem keepsTo_writeOutput (side : Side) (task : Nat) (output : String)
    (pairs : List Pair) :
    KeepsTo (tasksPrint job) (writeOutput job side task output pairs) fun _ =>
      True := by
  unfold writeOutput
  split_ifs
  · exact .pure trivial
  · split
    · exact .throw _
    · rename_i format hformat
      have hwrites : (tasksPrint job).writes
          (job.output.location.child (outputName output side task format)) :=
        .inl ⟨output, side, task, format, hformat, rfl⟩
      exact .within (.save hwrites) _

private theorem keepsTo_writeAll (side : Side) (task : Nat)
    (entries : List (String × Array Pair)) :
    KeepsTo (tasksPrint job) (writeAll job side task entries) fun _ =>
      True := by
  induction entries with
  | nil => exact .pure trivial
  | cons entry rest ih =>
      exact .bind (keepsTo_writeOutput side task entry.1 entry.2.toList)
        fun _ _ => ih

private theorem keepsTo_combine (pairs : List Pair) :
    KeepsTo (tasksPrint job) (combine registry job pairs) fun _ => True := by
  unfold combine
  split
  · exact .pure trivial
  · split
    · exact .throw _
    · exact .bind (.ofExcept _ _) fun _ _ => .pure trivial

private theorem keepsTo_mapAll (functions : List MapFunction) (index : Nat)
    (counters : Counters) (inputs : List (List Pair)) :
    KeepsTo (tasksPrint job) (mapAll registry job
      functions index counters inputs) fun _ => True := by
  induction inputs generalizing index counters with
  | nil => exact .pure trivial
  | cons records rest ih =>
      refine .bind (.ofExcept _ _) fun task _ => .bind (keepsTo_writeAll _ _ _)
        fun _ _ => ?_
      dsimp only
      split_ifs
      · refine .bind (keepsTo_combine _) fun combined _ => ?_
        exact .bind (ih _ _) fun others _ => .pure trivial
      · exact .bind (keepsTo_writeOutput _ _ _ _) fun _ _ => ih _ _

private theorem keepsTo_writeShuffle (index : Nat) (parts : List (List Pair)) :
    KeepsTo (tasksPrint job) (writeShuffle (shuffleDirectory job) index parts)
      fun paths => ∀ path ∈ paths, (tasksPrint job).reads path := by
  induction parts generalizing index with
  | nil => exact .pure (by simp)
  | cons pairs rest ih =>
      have hwrites :
          (tasksPrint job).writes (shufflePath (shuffleDirectory job) index) :=
        .inr ⟨index, rfl⟩
      refine .bind (.save hwrites) fun _ _ => .bind (ih (index + 1))
        fun paths hpaths => ?_
      exact .pure (List.forall_mem_cons.2 ⟨⟨index, rfl⟩, hpaths⟩)

private theorem keepsTo_reduceAll (reducer : String) (index : Nat)
    (counters : Counters) {paths : List Path}
    (hpaths : ∀ path ∈ paths, (tasksPrint job).reads path) :
    KeepsTo (tasksPrint job)
      (reduceAll registry job reducer index counters paths) fun _ => True := by
  induction paths generalizing index counters with
  | nil => exact .pure trivial
  | cons path rest ih =>
      obtain ⟨hpath, hrest⟩ := List.forall_mem_cons.1 hpaths
      refine .bind (.within (.load hpath) _) fun pairs _ => ?_
      split
      · exact .throw _
      · refine .bind (.ofExcept _ _) fun task _ =>
          .bind (keepsTo_writeAll _ _ _) fun _ _ => ?_
        exact .bind (keepsTo_writeOutput _ _ _ _) fun _ _ => ih _ _ hrest

private theorem keepsTo_runTasks (inputs : List (List Pair)) :
    KeepsTo (tasksPrint job) (runTasks registry job inputs) fun _ => True := by
  unfold runTasks
  split
  · exact .throw _
  · refine .bind (keepsTo_mapAll _ _ _ _) fun mapped _ => ?_
    dsimp only
    split
    · exact .pure trivial
    · refine .bind (.make rfl) fun _ _ => .bind (keepsTo_writeShuffle _ _)
        fun paths hpaths => ?_
      refine .bind (keepsTo_reduceAll _ _ _ hpaths) fun counters _ => ?_
      exact .bind (.clear rfl) fun _ _ => .pure trivial

/-! ## Jobs -/

private theorem isPartOf_trialPrint (job : Job) :
    (tasksPrint job).IsPartOf (trialPrint job) :=
  ⟨fun _ => False.elim, fun _ => .inr, fun _ => .inr, fun _ => id, fun _ => id⟩

private theorem isPartOf_jobPrint (job : Job) :
    (trialPrint job).IsPartOf (jobPrint job) :=
  ⟨fun _ => id, fun _ => id, fun _ => id, fun _ => .inr, fun _ => id⟩

theorem runJob_eq (registry : Registry) (id : String) (job : Job) :
    runJob registry id job =
      if !(missing registry job).isEmpty then
        throw (.ofText ("funciones no registradas: " ++
          String.intercalate ", " (missing registry job)))
      else (do
        let paths ← Effort.list job.input ("listando entrada " ++
          job.input.location.text)
        let inputs ← readAll job.input.format paths
        runOn registry id job inputs) := by
  unfold runJob
  split <;> rfl

def tryJob (registry : Registry) (job : Job) :
    Effort (Except Failure Counters) :=
  if !(missing registry job).isEmpty then
    throw (.ofText ("funciones no registradas: " ++
      String.intercalate ", " (missing registry job)))
  else do
    let paths ← Effort.list job.input ("listando entrada " ++
        job.input.location.text)
    let inputs ← readAll job.input.format paths
    Effort.ofStoreM (Store.makeDirectories job.output.location)
    tryTasks registry job inputs

def conclude (id : String) (job : Job) : Except Failure Counters →
    Effort JobReport
  | .ok counters => do
      Effort.ofStoreM (Store.change fun store =>
        store.write (job.output.location.child successMark) (.text ""))
      pure { id, status := .succeeded, counters }
  | .error failure => pure { id, status := .failed, error := some failure.full }

private theorem runJob_eq_conclude (registry : Registry) (id : String)
    (job : Job) :
    runJob registry id job = tryJob registry job >>= conclude id job := by
  rw [runJob_eq]
  unfold tryJob
  split_ifs
  · rfl
  · simp only [bind_assoc]
    refine bind_congr fun paths => bind_congr fun inputs =>
      bind_congr fun _ => ?_
    refine bind_congr fun result => ?_
    cases result <;> rfl

private theorem keepsTo_readAll {paths : List Path}
    (hpaths : ∀ path ∈ paths, job.input.Finds path) :
    KeepsTo (trialPrint job) (readAll job.input.format paths) fun _ =>
      True := by
  induction paths with
  | nil => exact .pure trivial
  | cons path rest ih =>
      obtain ⟨hpath, hrest⟩ := List.forall_mem_cons.1 hpaths
      have hreads : (trialPrint job).reads path := .inl hpath
      exact .bind (.within (.load hreads) _) fun _ _ =>
        .bind (ih hrest) fun _ _ => .pure trivial

private theorem keepsTo_tryTasks (inputs : List (List Pair)) :
    KeepsTo (trialPrint job) (tryTasks registry job inputs) fun _ => True := by
  unfold tryTasks
  split_ifs
  · exact .throw _
  · exact .attempt ((keepsTo_runTasks inputs).mono (isPartOf_trialPrint job))

private theorem keepsTo_tryJob :
    KeepsTo (trialPrint job) (tryJob registry job) fun _ => True := by
  have hlists : (trialPrint job).lists job.input := rfl
  have hmakes : (trialPrint job).makes job.output.location := .inl rfl
  unfold tryJob
  split_ifs
  · exact .throw _
  · refine .bind (.list hlists _) fun paths hpaths =>
      .bind (keepsTo_readAll hpaths) fun inputs _ => ?_
    exact .bind (.make hmakes) fun _ _ => keepsTo_tryTasks inputs

private theorem keepsTo_conclude (id : String)
    (result : Except Failure Counters) :
    KeepsTo (jobPrint job) (conclude id job result) fun _ => True := by
  have hmark : (jobPrint job).writes (job.output.location.child successMark) :=
    .inl rfl
  cases result with
  | ok counters => exact .bind (.write hmark) fun _ _ => .pure trivial
  | error failure => exact .pure trivial

theorem keepsTo_runJob (id : String) :
    KeepsTo (jobPrint job) (runJob registry id job) fun _ => True := by
  rw [runJob_eq_conclude]
  exact .bind (keepsTo_tryJob.mono (isPartOf_jobPrint job)) fun result _ =>
    keepsTo_conclude id result

/-! ## Marks -/

private theorem of_touches_trialPrint (hinside : StaysInside job)
    {here place : Place} (h : (trialPrint job).touches here place) :
    (∃ output side task format,
      place = outputPlace job here side task output format) ∨
      shufflePlace job here <+: place := by
  have hshuffle : placeOf here (shuffleDirectory job) = shufflePlace job here :=
    placeOf_shuffleDirectory job here
  rcases h with ⟨path, hwrites, hplace⟩ | ⟨path, hclears, hbelow⟩
  · rcases hwrites with ⟨output, side, task, format, hknown,
      hpath⟩ | ⟨index, hpath⟩
    · refine .inl ⟨output, side, task, format, ?_⟩
      rw [hplace, hpath]
      exact placeOf_child_outputName (hinside output (by simp [hknown])) here
        side task format
    · rw [hplace, hpath, placeOf_shufflePath, hshuffle]
      exact .inr (List.prefix_append ..)
  · rw [hclears, hshuffle] at hbelow
    exact .inr hbelow

theorem of_touches_jobPrint {here place : Place}
    (h : (jobPrint job).touches here place) :
    place = homeOf job here ++ [successMark] ∨
    (trialPrint job).touches here place := by
  rcases h with ⟨path, rfl | hwrites, hplace⟩ | hclears
  · rw [hplace, homeOf]
    exact .inl (Store.placeOf_child _ (by decide) (by decide) (by decide) here)
  · exact .inr (.inl ⟨path, hwrites, hplace⟩)
  · exact .inr (.inr hclears)

theorem below_of_touches (hinside : StaysInside job) {here place : Place}
    (h : (jobPrint job).touches here place) : homeOf job here <+: place := by
  rcases of_touches_jobPrint h with rfl | htrial
  · exact List.prefix_append ..
  · rcases of_touches_trialPrint hinside htrial
      with ⟨output, side, task, format, rfl⟩ | hbelow
    · exact List.prefix_append ..
    · exact (List.prefix_append ..).trans hbelow

theorem not_touches_trialPrint (hinside : StaysInside job) {here home : Place}
    {name : String} (hlength : (homeOf job here).length = home.length)
    (hhyphen : '-' ∉ name.toList) (htemporary : name ≠ temporaryDirectory) :
    ¬(trialPrint job).touches here (home ++ [name]) := by
  intro htouches
  rcases of_touches_trialPrint hinside htouches
    with ⟨output, side, task, format, hplace⟩ | hbelow
  · have hnames := (List.append_inj hplace hlength.symm).2
    exact outputName_ne hhyphen output side task format
      (List.singleton_inj.1 hnames).symm
  · have hplaces := hbelow.eq_of_length (by simp [shufflePlace, hlength])
    have hnames := (List.append_inj hplaces hlength).2
    exact htemporary (List.singleton_inj.1 hnames).symm

private theorem outcome_ofStoreM {α : Type} (work : StoreM α) (store : Store) :
    outcome (Effort.ofStoreM work) store =
      ((outcome work store).1.mapError IoError.failure,
        (outcome work store).2) := rfl

private theorem outcome_conclude_ok (id : String) (counters : Counters)
    (store : Store) : outcome (conclude id job (.ok counters)) store =
      match store.write (job.output.location.child successMark) (.text "") with
      | .ok marked => (.ok { id, status := .succeeded, counters }, marked)
      | .error error => (.error (IoError.store error).failure, store) := by
  have hmark : outcome (Effort.ofStoreM (change fun store =>
      store.write (job.output.location.child successMark) (.text ""))) store =
        match store.write (job.output.location.child successMark) (.text "")
          with
        | .ok marked => (.ok (), marked)
        | .error error => (.error (IoError.store error).failure, store) := by
    rw [outcome_ofStoreM, outcome_change]
    cases store.write (job.output.location.child successMark) (.text "") <;> rfl
  unfold conclude
  rw [outcome_bind, hmark]
  cases store.write (job.output.location.child successMark) (.text "") <;> rfl

theorem settles_of_runJob {id : String} {store after : Store}
    {result : Except Failure JobReport} (htree : IsTree store)
    (hrun : outcome (runJob registry id job) store = (result, after))
    (hfails : ∀ report, result = .ok report → report.status ≠ .succeeded) :
    Settles ((trialPrint job).touches store.here) store after := by
  obtain ⟨hsettles, -⟩ := (@keepsTo_tryJob registry job).settles htree
  rw [runJob_eq_conclude, outcome_bind] at hrun
  generalize outcome (tryJob registry job) store = tried at hsettles hrun
  obtain ⟨error | error | counters, between⟩ := tried
  · exact (Prod.mk.inj hrun).2 ▸ hsettles
  · exact (Prod.mk.inj hrun).2 ▸ hsettles
  · simp only [outcome_conclude_ok] at hrun
    split at hrun
    · exact absurd rfl (hfails _ (Prod.mk.inj hrun).1.symm)
    · exact (Prod.mk.inj hrun).2 ▸ hsettles

end Engine

open Engine

/-- All that a job changes lies in what two stores share. -/
structure Store.Scope.Houses (scope : Scope) (job : Job) : Prop where
  inside : StaysInside job
  ne_empty : job.output.location.text ≠ ""
  output : scope.Covers job.output.location
  outputs : scope.Holds job.output.location

/-- All that a job uses lies in what two stores share. -/
structure Store.Scope.Hosts (scope : Scope) (job : Job) :
    Prop extends scope.Houses job where
  input : scope.Covers job.input.location
  inputs : ∀ name,
      scope.Admits (placeOf scope.here job.input.location ++ [name])

variable {scope : Store.Scope} {job : Job}

namespace Store.Scope.Houses

theorem child (h : scope.Houses job) {name : String}
    (hslash : '/' ∉ name.toList) (hstep : Path.isStep name = true)
    (hparent : name ≠ "..") : scope.Covers (job.output.location.child name) ∧
    scope.Holds (job.output.location.child name) := by
  have hholds := h.outputs.child hslash hstep hparent
  exact ⟨h.output.child hslash hstep hparent hholds, hholds⟩

theorem of_isFoundIn (h : scope.Houses job) {name : String} {path : Path}
    (hfound : IsFoundIn job.output.location name path) : scope.Covers path ∧
    scope.Holds path := by
  refine ⟨hfound.covers h.output (h.outputs.admits (List.prefix_append ..)),
    fun place hbelow => ?_⟩
  rw [hfound.placeOf_eq] at hbelow
  exact h.outputs place ((List.prefix_append ..).trans hbelow)

private theorem covers_shufflePath (h : scope.Houses job) (index : Nat) :
    scope.Covers (shufflePath (shuffleDirectory job) index) := by
  obtain ⟨hcovers, hholds⟩ :=
    h.child (by decide : '/' ∉ temporaryDirectory.toList) (by decide)
      (by decide)
  obtain ⟨hstep, hparent⟩ := isStep_shuffleName index
  have hslash := no_slash_shuffleName index
  exact hcovers.child hslash hstep hparent (hholds.child hslash hstep hparent)

theorem changesIn (h : scope.Houses job) : (jobPrint job).ChangesIn scope := by
  have hdirectory := h.child (by decide : '/' ∉ temporaryDirectory.toList)
    (by decide) (by decide)
  constructor
  · rintro path (rfl | rfl)
    · exact .inr h.output
    · exact .inr hdirectory.1
  · rintro path (rfl | ⟨output, side, task, format, hformat, rfl⟩ |
      ⟨index, rfl⟩)
    · exact (h.child (by decide : '/' ∉ successMark.toList) (by decide)
          (by decide)).1
    · have hslash := h.inside output (by rw [hformat]; rfl)
      exact (h.child (no_slash_outputName hslash side task format)
        (by simp [Path.isStep, outputName_ne])
        (outputName_ne (by decide) output side task format)).1
    · exact h.covers_shufflePath index
  · rintro path rfl
    exact hdirectory

end Store.Scope.Houses

private theorem Store.Scope.Hosts.covers_of_finds (h : scope.Hosts job)
    {path : Path} (hfinds : job.input.Finds path) : scope.Covers path := by
  rcases hfinds with rfl | ⟨name, hfound⟩
  · exact h.input
  · exact hfound.covers h.input (h.inputs name)

theorem Store.Scope.Hosts.liesIn (h : scope.Hosts job) :
    (jobPrint job).LiesIn scope fun _ _ _ => False where
  toChangesIn := h.changesIn
  lists := by
    rintro _ rfl
    exact ⟨h.input, h.inputs⟩
  reads := by
    rintro path (hfinds | ⟨index, rfl⟩)
    · exact ⟨h.covers_of_finds hfinds, fun _ _ => id⟩
    · exact ⟨h.covers_shufflePath index, fun _ _ => id⟩

end JobChain
