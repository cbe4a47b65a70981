import JobChain.Proofs.Store.Trees

/-!
# Changes of stores

What making directories and writing a file do to a store, told by what is at
each place before and after. Neither of them turns a tree into something else.
-/

namespace JobChain.Store

open Path (isStep)

variable {store after : Store} {path : Path}

/-! ## The last step -/

private theorem last_routeOf (path : Path) :
    (routeOf path).last = "." ∨ (routeOf path).last ≠ "" ∧
    (routeOf path).last ∈ path.pieces := by
  cases hpieces : path.pieces.reverse.dropWhile (· = "") with
  | nil => exact .inl (by simp [routeOf, hpieces])
  | cons last before =>
      have hlast : (routeOf path).last = last := by simp [routeOf, hpieces]
      have hhead := List.head?_dropWhile_not
        (fun piece => decide (piece = "")) path.pieces.reverse
      have hmem : last ∈ path.pieces.reverse.dropWhile (· = "") :=
        hpieces ▸ List.mem_cons_self
      rw [hlast]
      refine .inr ⟨by simpa [hpieces] using hhead, ?_⟩
      exact List.mem_reverse.1 ((List.dropWhile_sublist _).mem hmem)

theorem isStep_last {path : Path} (hdots : isDots (routeOf path).last = false) :
    isStep (routeOf path).last = true ∧ (routeOf path).last ≠ ".." ∧
      '/' ∉ (routeOf path).last.toList := by
  obtain ⟨hcurrent, hparent⟩ : (routeOf path).last ≠ "." ∧
      (routeOf path).last ≠ ".." := by
    simpa [isDots] using hdots
  obtain ⟨hempty, hmem⟩ := (last_routeOf path).resolve_left hcurrent
  exact ⟨by
    simp [isStep, hempty, hcurrent], hparent, Path.no_slash_of_mem_pieces hmem⟩

theorem steps_eq_concat {path : Path}
    (hdots : isDots (routeOf path).last = false) :
    path.steps = (routeOf path).before.filter isStep ++
    [(routeOf path).last] := by
  rw [← steps_routeOf, List.filter_cons_of_pos (isStep_last hdots).1,
    List.filter_nil]

theorem isDots_of_isName {name : String}
    (h : IsName name) : isDots name = false := by
  simp [isDots, h.ne_current, h.ne_parent]

theorem placeOf_eq_concat {path : Path}
    (hdots : isDots (routeOf path).last = false) (here : Place) :
    placeOf here path =
      placeFrom (startOf here path) ((routeOf path).before.filter isStep) ++
      [(routeOf path).last] := by
  rw [placeOf, steps_eq_concat hdots, placeFrom_append, placeFrom_cons,
    placeFrom_nil, stepFrom, if_neg (isStep_last hdots).2.1]

theorem isOpen_steps_iff (hdots : isDots (routeOf path).last = false) :
    IsOpen store (startOf store.here path) path.steps ↔
      IsOpen store (startOf store.here path)
        ((routeOf path).before.filter isStep) ∧
        (routeOf path).last.utf8ByteSize ≤ nameLimit ∧
          store.node? (placeOf store.here path) = some .directory := by
  rw [steps_eq_concat hdots, isOpen_concat_iff, placeOf_eq_concat hdots,
    stepFrom, if_neg (isStep_last hdots).2.1]

theorem isName_last {path : Path} (haccepted : IsAccepted path)
    (hdots : isDots (routeOf path).last = false)
    (hshort : (routeOf path).last.utf8ByteSize ≤ nameLimit) :
    IsName (routeOf path).last := by
  obtain ⟨hcurrent, hparent⟩ : (routeOf path).last ≠ "." ∧
      (routeOf path).last ≠ ".." := by
    simpa [isDots] using hdots
  obtain ⟨hempty, hmem⟩ := (last_routeOf path).resolve_left hcurrent
  exact
    { ne_empty := hempty
      ne_current := hcurrent
      ne_parent := hparent
      no_slash := Path.no_slash_of_mem_pieces hmem
      no_nul := fun hnul => haccepted.no_nul (Path.mem_of_mem_pieces hmem hnul)
      short := hshort }

/-- A last step that is not made of dots names a place in the directory before
it. -/
theorem descend_last {parent place : Place}
    (henter : store.enterRoute path = .ok parent)
    (hdescend : descend parent (routeOf path).last = .ok place)
    (hdots : isDots (routeOf path).last = false) : IsName (routeOf path).last ∧
    place = parent ++ [(routeOf path).last] ∧
      store.node? parent = some .directory ∧
      placeOf store.here path = place := by
  obtain ⟨haccepted, hopen, rfl⟩ := enterRoute_eq_ok_iff.1 henter
  obtain ⟨hshort, rfl⟩ := descend_eq_ok_iff.1 hdescend
  obtain ⟨hstep, -, -⟩ := isStep_last hdots
  have hname : IsName (routeOf path).last :=
    isName_last haccepted hdots
      (hshort _ (List.mem_filter.2 ⟨List.mem_cons_self, hstep⟩))
  refine ⟨hname, ?_, hopen.directories _ (placeFrom_mem_walkFrom _ _), ?_⟩
  · simp [hstep, stepFrom_name hname]
  · rw [placeOf, ← steps_routeOf, placeFrom_append]

/-! ## Making directories -/

/-- A store with directories where nothing was before, and with all else as it
was. -/
structure Grows (before after : Store) : Prop where
  here_eq : after.here = before.here
  node?_eq : ∀ place, after.node? place = before.node? place ∨
    before.node? place = none ∧ after.node? place = some .directory
  isTree : IsTree before → IsTree after

namespace Grows

variable {before between : Store}

theorem refl (store : Store) : Grows store store := ⟨rfl, fun _ => .inl rfl, id⟩

theorem trans (h : Grows before between)
    (h' : Grows between after) : Grows before after where
  here_eq := h'.here_eq.trans h.here_eq
  node?_eq place := by
    rcases h.node?_eq place with heq | ⟨hnone, hdirectory⟩
    · rcases h'.node?_eq place with heq' | ⟨hnone', hdirectory'⟩
      · exact .inl (heq'.trans heq)
      · exact .inr ⟨heq ▸ hnone', hdirectory'⟩
    · rcases h'.node?_eq place with heq' | ⟨hnone', -⟩
      · exact .inr ⟨hnone, heq'.trans hdirectory⟩
      · simp [hdirectory] at hnone'
  isTree htree := h'.isTree (h.isTree htree)

theorem directory (h : Grows before after) {place : Place}
    (hplace : before.node? place = some .directory) :
    after.node? place = some .directory := by
  rcases h.node?_eq place with heq | ⟨-, hdirectory⟩
  · rw [heq, hplace]
  · exact hdirectory

theorem isOpen (h : Grows before after) {place : Place} {steps : List String}
    (hopen : IsOpen before place steps) : IsOpen after place steps :=
  ⟨fun passed hpassed => h.directory (hopen.directories passed hpassed),
    hopen.short⟩

end Grows

theorem isTree_empty : IsTree {} := by
  have hnone : ∀ place, ({} : Store).node? place ≠ none → place = [] := by
    intro place hplace
    by_contra hne
    simp [node?, hne] at hplace
  refine ⟨fun place hplace => ?_, fun place name hname => ?_⟩
  · simp [hnone place hplace]
  · have hroot := hnone _ hname
    simp at hroot

theorem isTree_put {parent : Place} {name : String} {node : Node}
    (h : IsTree store) (hparent : store.node? parent = some .directory)
    (hname : IsName name)
    (hplace : store.node? (parent ++ [name]) ≠ some .directory) :
    IsTree (store.put (parent ++ [name]) node) := by
  have hput := fun other => store.node?_put (parent ++ [name]) other node
    (by simp)
  constructor
  · intro place hne step hstep
    rw [hput] at hne
    by_cases heq : place = parent ++ [name]
    · subst heq
      rcases List.mem_append.1 hstep with hstep | hstep
      · exact h.names parent (by simp [hparent]) step hstep
      · exact List.mem_singleton.1 hstep ▸ hname
    · rw [if_neg heq] at hne
      exact h.names place hne step hstep
  · intro place step hne
    have hdirectory : store.node? place = some .directory := by
      rw [hput] at hne
      by_cases heq : place ++ [step] = parent ++ [name]
      · rw [List.append_inj_left' heq rfl]
        exact hparent
      · rw [if_neg heq] at hne
        exact h.around place step hne
    have hother : place ≠ parent ++ [name] := by
      rintro rfl
      exact hplace hdirectory
    rw [hput, if_neg hother]
    exact hdirectory

theorem makeDirectory_eq_ok_iff : store.makeDirectory path = .ok after ↔
    IsAccepted path ∧
      IsOpen store (startOf store.here path)
        ((routeOf path).before.filter isStep) ∧
      IsName (routeOf path).last ∧
      store.node? (placeOf store.here path) = none ∧
      after = store.put (placeOf store.here path) .directory := by
  simp only [makeDirectory, bind_eq_ok_iff]
  constructor
  · rintro ⟨parent, henter, place, hdescend, h⟩
    split at h
    · cases h
    rename_i hfree
    rw [Bool.or_eq_true, not_or] at hfree
    obtain ⟨hname, -, -, rfl⟩ :=
      descend_last henter hdescend (by simpa using hfree.1)
    obtain ⟨haccepted, hopen, -⟩ := enterRoute_eq_ok_iff.1 henter
    cases h
    exact ⟨haccepted, hopen, hname, by simpa using hfree.2, rfl⟩
  · rintro ⟨haccepted, hopen, hname, hnone, rfl⟩
    have hdots := isDots_of_isName hname
    refine ⟨_, enterRoute_eq_ok_iff.2 ⟨haccepted, hopen, rfl⟩,
      placeOf store.here path, ?_, ?_⟩
    · rw [descend_eq_ok_iff, placeOf_eq_concat hdots]
      simp [Path.isStep_name hname, hname.short, stepFrom_name hname]
    · rw [if_neg (by simp [hdots, hnone])]

private theorem makeDirectory_eq_ok (h : store.makeDirectory path = .ok after) :
    Grows store after ∧ after.isDirectory path = true := by
  obtain ⟨haccepted, hopen, hname, hnone, rfl⟩ := makeDirectory_eq_ok_iff.1 h
  have hdots := isDots_of_isName hname
  have hplace := placeOf_eq_concat hdots store.here
  have hput := fun other =>
    store.node?_put (placeOf store.here path) other .directory
      (by simp [hplace])
  have hgrows :
      Grows store (store.put (placeOf store.here path) .directory) := by
    refine ⟨rfl, fun other => ?_, fun htree => ?_⟩
    · rw [hput]
      by_cases heq : other = placeOf store.here path
      · exact .inr ⟨heq ▸ hnone, if_pos heq⟩
      · exact .inl (if_neg heq)
    · have hparent := hopen.directories _ (placeFrom_mem_walkFrom _ _)
      rw [hplace] at hnone ⊢
      exact isTree_put htree hparent hname (by simp [hnone])
  refine ⟨hgrows, isDirectory_iff.2 ⟨haccepted, ?_⟩⟩
  exact (isOpen_steps_iff hdots).2
    ⟨hgrows.isOpen hopen, hname.short, (hput _).trans (if_pos rfl)⟩

private theorem isDirectory_of_refused {error : StoreError}
    (h : (makeFirst.refused path error store).1 = .ok ()) :
    store.isDirectory path = true := by
  unfold makeFirst.refused at h
  by_contra hdirectory
  simp [hdirectory] at h

theorem of_makeFirst_refused {refused : StoreError} {error : IoError}
    (h : makeFirst.refused path refused store = (.error error, after)) :
    after = store ∧ error = .store refused ∧
    store.isDirectory path = false := by
  unfold makeFirst.refused at h
  split_ifs at h with hdirectory
  · cases h
  · obtain ⟨hanswer, rfl⟩ := Prod.mk.inj h
    exact ⟨rfl, (Except.error.inj hanswer).symm, by simpa using hdirectory⟩

/-- Directories are made around a directory that is made, and nothing else
happens. -/
theorem makeFirst_spec (paths : List Path) (store : Store) :
    Grows store (makeFirst paths store).2 ∧ ∀ path outer,
    paths = path :: outer → (makeFirst paths store).1 = .ok () →
        path.text = "" ∨ (makeFirst paths store).2.isDirectory path = true := by
  induction paths generalizing store with
  | nil => exact ⟨.refl store, by simp⟩
  | cons path outer ih =>
      suffices h : Grows store (makeFirst (path :: outer) store).2 ∧
          ((makeFirst (path :: outer) store).1 = .ok () →
            path.text = "" ∨
            (makeFirst (path :: outer) store).2.isDirectory path = true) by
        refine ⟨h.1, ?_⟩
        rintro _ _ ⟨rfl, rfl⟩ hok
        exact h.2 hok
      unfold makeFirst
      by_cases hempty : path.text = ""
      · rw [if_pos hempty]
        exact ⟨.refl store, fun _ => .inl hempty⟩
      · rw [if_neg hempty]
        cases hmade : store.makeDirectory path with
        | ok made =>
            obtain ⟨hgrows, hdirectory⟩ := makeDirectory_eq_ok hmade
            exact ⟨hgrows, fun _ => .inr hdirectory⟩
        | error error =>
            by_cases hmissing : error = .notFound
            · subst hmissing
              have houter := (ih store).1
              rcases houterMade : makeFirst outer store with ⟨_ | _, between⟩
              · simpa [houterMade] using houter
              · rw [houterMade] at houter
                simp only
                cases hmade' : between.makeDirectory path with
                | ok made =>
                    obtain ⟨hgrows, hdirectory⟩ := makeDirectory_eq_ok hmade'
                    exact ⟨houter.trans hgrows, fun _ => .inr hdirectory⟩
                | error error =>
                    exact ⟨houter, fun hok => .inr (isDirectory_of_refused hok)⟩
            · cases error <;> first
                | exact ⟨.refl store,
                    fun hok => .inr (isDirectory_of_refused hok)⟩
                | simp at hmissing

theorem makeDirectories_spec (path : Path) (store : Store) :
    Grows store (makeDirectories path store).2 ∧
    ((makeDirectories path store).1 = .ok () →
      path.text = "" ∨ (makeDirectories path store).2.isDirectory path =
        true) := by
  obtain ⟨hgrows, hmade⟩ := makeFirst_spec (path :: path.directories) store
  exact ⟨hgrows, hmade path path.directories rfl⟩

/-! ## Writing -/

theorem write_eq_ok {content : Content}
    (h : store.write path content = .ok after) :
    ∃ parent name, placeOf store.here path = parent ++ [name] ∧ IsName name ∧
      store.node? parent = some .directory ∧
      store.node? (parent ++ [name]) ≠ some .directory ∧
      after = store.put (parent ++ [name]) (.file content) := by
  simp only [write, bind_eq_ok_iff] at h
  obtain ⟨parent, henter, h⟩ := h
  split at h
  · cases h
  rename_i hdots
  simp only [bind_eq_ok_iff] at h
  obtain ⟨place, hdescend, h⟩ := h
  split at h
  · cases h
  rename_i hfree
  rw [Bool.or_eq_true, not_or] at hdots
  obtain ⟨hname, rfl, hparent, hplaceOf⟩ :=
    descend_last henter hdescend (by simpa using hdots.2)
  cases h
  exact ⟨parent, _, hplaceOf, hname, hparent, hfree, rfl⟩

theorem change_write_refills (path : Path) (content : Content) (store : Store) :
    Refills store (change (fun store => store.write path content) store).2
      fun place => place = placeOf store.here path := by
  simp only [change]
  cases hwrite : store.write path content with
  | error error => exact .refl store _
  | ok written =>
      obtain ⟨parent, name, hplace, hname, hparent, hfree, rfl⟩ :=
        write_eq_ok hwrite
      have hput : ∀ place,
          (store.put (parent ++ [name]) (.file content)).node? place =
          if place = parent ++ [name] then some (.file content)
          else store.node? place :=
        fun place => node?_put _ _ _ _ (by simp)
      refine ⟨⟨rfl, fun place hother => ?_,
        fun htree => isTree_put htree hparent hname hfree⟩,
        fun place => ?_⟩
      · rw [hput, if_neg fun heq => hother (heq.trans hplace.symm)]
      · change (store.put (parent ++ [name]) (.file content)).node? place = _ ↔
            _
        rw [hput]
        by_cases heq : place = parent ++ [name]
        · simp [heq, hfree]
        · rw [if_neg heq]

end JobChain.Store
