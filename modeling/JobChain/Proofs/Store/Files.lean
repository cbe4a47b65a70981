import JobChain.Proofs.Store.Changes
import JobChain.RecordFormat

/-!
# Files of a store

Making directories and writing files never takes a directory away, so that the
way to a file that has been written stays open. The file is read as it was
written until another one takes its place.
-/

namespace JobChain

/-! ## Work that succeeds -/

section

variable {ε σ α β : Type}

def outcome (work : ExceptT ε (StateM σ) α) (store : σ) : Except ε α × σ :=
  work store

/-- Work on a store gives an answer and leaves a store. -/
def Succeeds (work : ExceptT ε (StateM σ) α) (store : σ) (answer : α)
    (after : σ) : Prop :=
  outcome work store = (.ok answer, after)

variable {store after : σ}

theorem outcome_bind (work : ExceptT ε (StateM σ) α)
    (next : α → ExceptT ε (StateM σ) β) : outcome (work >>= next) store =
      match outcome work store with
      | (.ok value, between) => outcome (next value) between
      | (.error error, between) => (.error error, between) := by
  have hstep : outcome (work >>= next) store =
      ExceptT.bindCont (m := StateM σ) next (outcome work store).1
        (outcome work store).2 := rfl
  rw [hstep]
  rcases outcome work store with ⟨_ | _, between⟩ <;> rfl

theorem succeeds_bind_iff {work : ExceptT ε (StateM σ) α}
    {next : α → ExceptT ε (StateM σ) β} {answer : β} :
    Succeeds (work >>= next) store answer after ↔
      ∃ value between, Succeeds work store value between ∧
        Succeeds (next value) between answer after := by
  unfold Succeeds
  rw [outcome_bind]
  rcases outcome work store with ⟨error | value, between⟩ <;> simp

theorem succeeds_pure_iff {value answer : α} :
    Succeeds (pure value : ExceptT ε (StateM σ) α) store answer after ↔
      value = answer ∧ store = after := by
  change ((.ok value, store) : Except ε α × σ) = _ ↔ _
  simp

theorem not_succeeds_throw {error : ε} {answer : α} :
    ¬Succeeds (throw error : ExceptT ε (StateM σ) α) store answer after := by
  change ((.error error, store) : Except ε α × σ) ≠ _
  simp

private theorem succeeds_lift_iff {result : Except ε α} {answer : α} :
    Succeeds (liftM result : ExceptT ε (StateM σ) α) store answer after ↔
      result = .ok answer ∧ store = after := by
  change ((result, store) : Except ε α × σ) = _ ↔ _
  simp

theorem exists_succeeds {work : ExceptT ε (StateM σ) α} {view : α → β}
    {seen : β} (h : (outcome work store).1.toOption.map view = some seen) :
    ∃ answer after, Succeeds work store answer after ∧ view answer = seen := by
  unfold Succeeds
  generalize outcome work store = result at h ⊢
  obtain ⟨_ | answer, after⟩ := result
  · cases h
  · exact ⟨answer, after, rfl, Option.some.inj h⟩

end

namespace Store

open Path (isStep)

/-! ## Places of files -/

def fileAt? (store : Store) (place : Place) : Option Content :=
  match store.node? place with
  | some (.file content) => some content
  | _ => none

theorem fileAt?_eq_some {store : Store} {place : Place} {content : Content} :
    store.fileAt? place = some content ↔
    store.node? place = some (.file content) := by
  unfold fileAt?
  split
  · rename_i heq
    simp [heq]
  · rename_i hnot
    simp only [reduceCtorEq, false_iff]
    exact fun heq => hnot content heq

theorem fileAt?_eq_none {store : Store} {place : Place} :
    store.fileAt? place = none ↔ ∀ content,
    store.node? place ≠ some (.file content) := by
  simp only [Option.eq_none_iff_forall_ne_some, ne_eq, fileAt?_eq_some]

theorem fileAt?_congr {store after : Store} {place : Place}
    (h : after.node? place = store.node? place) :
    after.fileAt? place = store.fileAt? place := by
  rw [fileAt?, fileAt?, h]

/-! ## Building up -/

/-- A store in which no directory is lost. -/
structure Builds (before after : Store) : Prop where
  here_eq : after.here = before.here
  directory : ∀ place, before.node? place = some .directory →
      after.node? place = some .directory
  isTree : IsTree before → IsTree after

namespace Builds

variable {before between after : Store}

theorem refl (store : Store) : Builds store store := ⟨rfl, fun _ => id, id⟩

theorem trans (h : Builds before between)
    (h' : Builds between after) : Builds before after where
  here_eq := h'.here_eq.trans h.here_eq
  directory place hplace := h'.directory place (h.directory place hplace)
  isTree htree := h'.isTree (h.isTree htree)

theorem isOpen (h : Builds before after) {start : Place} {way : List String}
    (hopen : IsOpen before start way) : IsOpen after start way :=
  ⟨fun passed hpassed => h.directory passed (hopen.directories passed hpassed),
    hopen.short⟩

end Builds

theorem Grows.builds {before after : Store}
    (h : Grows before after) : Builds before after :=
  ⟨h.here_eq, fun _ => h.directory, h.isTree⟩

theorem Grows.fileAt?_eq {before after : Store} (h : Grows before after)
    (place : Place) : after.fileAt? place = before.fileAt? place := by
  rcases h.node?_eq place with heq | ⟨hnone, hdirectory⟩
  · exact fileAt?_congr heq
  · simp [fileAt?, hnone, hdirectory]

theorem Shrinks.fileAt?_eq_none {before after : Store} {aim : Place → Prop}
    (h : Shrinks before after aim) {place : Place}
    (hnone : before.fileAt? place = none) : after.fileAt? place = none := by
  rcases h.less place with heq | hgone
  · rw [fileAt?_congr heq, hnone]
  · simp [fileAt?, hgone]

/-! ## Reading -/

private theorem read_eq_ok_iff {store : Store} {path : Path}
    {content : Content} : store.read path = .ok content ↔ IsAccepted path ∧
      IsOpen store (startOf store.here path)
        ((routeOf path).before.filter isStep) ∧
      (∀ step ∈ [(routeOf path).last].filter isStep,
        step.utf8ByteSize ≤ nameLimit) ∧
      (routeOf path).slashed = false ∧ store.fileAt? (placeOf store.here path) =
        some content := by
  have hfind : store.read path = .ok content ↔
      ∃ place, store.find path = .ok (place, .file content) := by
    unfold read
    rcases store.find path with error | ⟨place, content' | _⟩ <;>
      simp [Bind.bind, Except.bind, eq_comm]
  simp only [hfind, find_eq_ok_iff, fileAt?_eq_some]
  constructor
  · rintro ⟨place, haccepted, hopen, hshort, rfl, hnode, hkind⟩
    exact ⟨haccepted, hopen, hshort, hkind.resolve_left (by simp), hnode⟩
  · rintro ⟨haccepted, hopen, hshort, hslashed, hnode⟩
    exact ⟨_, haccepted, hopen, hshort, rfl, hnode, .inr hslashed⟩

theorem isOpen_of_read {store : Store} {base : Path} {name : String}
    {content : Content} (hname : IsName name)
    (h : store.read (base.child name) = .ok content) :
    IsOpen store (startOf store.here base) base.steps := by
  obtain ⟨before, hbefore, hpieces⟩ := base.pieces_child
  obtain ⟨-, hopen, -⟩ := read_eq_ok_iff.1 h
  rwa [routeOf_of_name hname (hpieces name hname.no_slash), hbefore, startOf,
    Path.isAbsolute_child base hname.no_slash] at hopen

theorem isAccepted_of_child {base : Path} {name : String}
    (hslash : '/' ∉ name.toList) (hne : base.text ≠ "")
    (h : IsAccepted (base.child name)) : IsAccepted base := by
  have hnul := h.no_nul
  have hshort := h.short
  rw [Path.text_child base hslash, Path.front, if_neg hne] at hnul hshort
  refine ⟨fun hmem => hnul ?_, hne, ?_⟩
  · split_ifs <;> simp [hmem]
  · split_ifs at hshort <;> simp only [String.utf8ByteSize_append]
      at hshort <;> omega

theorem Builds.read_eq_ok {before after : Store} (h : Builds before after)
    {path : Path} {content : Content} (hread : before.read path = .ok content)
    (hkept : after.fileAt? (placeOf before.here path) =
      before.fileAt? (placeOf before.here path)) :
    after.read path = .ok content := by
  obtain ⟨haccepted, hopen, hshort, hslashed, hfile⟩ := read_eq_ok_iff.1 hread
  rw [read_eq_ok_iff, h.here_eq, hkept]
  exact ⟨haccepted, h.isOpen hopen, hshort, hslashed, hfile⟩

/-! ## Writing -/

/-- A store in which a file has been written. -/
structure Writes (path : Path) (content : Content) (before after : Store) : Prop
    extends Builds before after where
  fileAt?_eq : ∀ place, after.fileAt? place =
    if place = placeOf before.here path then some content
    else before.fileAt? place
  read_eq : after.read path = .ok content
  accepted : IsAccepted path
  named : ∃ parent name, placeOf before.here path = parent ++ [name] ∧
      IsName name

theorem writes_of_write {store after : Store} {path : Path} {content : Content}
    (h : store.write path content = .ok after) :
    Writes path content store after := by
  have hrefills : Refills store after fun place =>
      place = placeOf store.here path := by
    have hchange := change_write_refills path content store
    simpa [change, h] using hchange
  have hbuilds : Builds store after :=
    ⟨hrefills.here_eq, fun place => (hrefills.directory_iff place).2,
      hrefills.isTree⟩
  obtain ⟨parent, name, hplace, hname, hparent, hfree, hafter⟩ := write_eq_ok h
  have hfile : after.fileAt? (placeOf store.here path) = some content := by
    rw [fileAt?_eq_some, hafter, hplace, node?_put _ _ _ _ (by simp),
      if_pos rfl]
  simp only [write, bind_eq_ok_iff, enterRoute_eq_ok_iff] at h
  obtain ⟨_, ⟨haccepted, hopen, -⟩, h⟩ := h
  split at h
  · cases h
  rename_i hplain
  simp only [bind_eq_ok_iff, descend_eq_ok_iff] at h
  obtain ⟨_, ⟨hshort, -⟩, -⟩ := h
  refine ⟨hbuilds, fun place => ?_, ?_, haccepted, parent, name, hplace, hname⟩
  · split_ifs with heq
    · rw [heq, hfile]
    · exact fileAt?_congr (hrefills.kept place heq)
  · rw [read_eq_ok_iff, hbuilds.here_eq]
    exact ⟨haccepted, hbuilds.isOpen hopen, hshort, by simp_all, hfile⟩

private theorem succeeds_ask_iff {α : Type}
    {question : Store → Except StoreError α} {answer : α}
    {store after : Store} : Succeeds (ask question) store answer after ↔
      question store = .ok answer ∧ store = after := by
  change ((question store).mapError _, store) = _ ↔ _
  cases question store <;> simp [Except.mapError]

theorem outcome_change (step : Store → Except StoreError Store)
    (store : Store) : outcome (change step) store = match step store with
      | .ok after => (.ok (), after)
      | .error error => (.error (.store error), store) := rfl

theorem succeeds_change_iff {step : Store → Except StoreError Store}
    {store after : Store} : Succeeds (change step) store () after ↔
    step store = .ok after := by
  rw [Succeeds, outcome_change]
  cases step store <;> simp

private theorem Writes.of_grows {path : Path} {content : Content}
    {before between after : Store} (hgrows : Grows before between)
    (h : Writes path content between after) :
    Writes path content before after where
  toBuilds := hgrows.builds.trans h.toBuilds
  fileAt?_eq place := by rw [h.fileAt?_eq, hgrows.here_eq, hgrows.fileAt?_eq]
  read_eq := h.read_eq
  accepted := h.accepted
  named := hgrows.here_eq ▸ h.named

theorem writes_of_save {format : RecordFormat} {path : Path} {pairs : List Pair}
    {store after : Store}
    (h : Succeeds (format.save path pairs) store () after) :
    Writes path (.text (format.write pairs)) store after := by
  have hplain : ∀ {between : Store}, Grows store between →
      Succeeds (change fun store =>
        store.write path (.text (format.write pairs))) between () after →
        Writes path (.text (format.write pairs)) store after :=
    fun hgrows hwrite =>
      .of_grows hgrows (writes_of_write (succeeds_change_iff.1 hwrite))
  unfold RecordFormat.save at h
  split at h
  · rename_i directory _
    split at h
    · obtain ⟨⟨⟩, between, hmake, hwrite⟩ := succeeds_bind_iff.1 h
      have hgrows := (makeDirectories_spec directory store).1
      rw [show makeDirectories directory store = (.ok (), between) from hmake]
        at hgrows
      exact hplain hgrows hwrite
    · exact hplain (.refl store) h
  · exact hplain (.refl store) h

/-- A path leads to a file that holds some records in a format. -/
def Reads (store : Store) (format : RecordFormat) (path : Path)
    (pairs : List Pair) : Prop :=
  ∃ content, store.read path = .ok content ∧
    format.read path content = .ok pairs

def recordsAt (store : Store) (format : RecordFormat)
    (path : Path) : List Pair :=
  match store.read path with
  | .error _ => []
  | .ok content => (format.read path content).toOption.getD []

theorem Reads.recordsAt_eq {store : Store} {format : RecordFormat} {path : Path}
    {pairs : List Pair} (h : store.Reads format path pairs) :
    store.recordsAt format path = pairs := by
  obtain ⟨content, hread, hpairs⟩ := h
  simp [recordsAt, hread, hpairs, Except.toOption]

theorem map_recordsAt {store : Store} {format : RecordFormat}
    {paths : List Path} {parts : List (List Pair)}
    (h : List.Forall₂ (store.Reads format) paths parts) :
    paths.map (store.recordsAt format) = parts := by
  induction h with
  | nil => rfl
  | cons hreads _ ih => rw [List.map_cons, hreads.recordsAt_eq, ih]

theorem succeeds_load_iff {format : RecordFormat} {path : Path}
    {pairs : List Pair} {store after : Store} :
    Succeeds (format.load path) store pairs after ↔
      store = after ∧ store.Reads format path pairs := by
  unfold RecordFormat.load
  simp only [succeeds_bind_iff, succeeds_ask_iff, succeeds_lift_iff]
  constructor
  · rintro ⟨content, _, ⟨hread, rfl⟩, hpairs, rfl⟩
    exact ⟨rfl, content, hread, hpairs⟩
  · rintro ⟨rfl, content, hread, hpairs⟩
    exact ⟨content, store, ⟨hread, rfl⟩, hpairs, rfl⟩

end Store

end JobChain
