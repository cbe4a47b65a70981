import JobChain.Proofs.Store.Erasing
import Mathlib.Data.List.Chain

/-!
# Making directories again

Where a directory cannot be made, those around it may have been made. Making it
again comes to the same then: it is refused for the same reason, and nothing
more is made.
-/

namespace JobChain

open Store

namespace Path

/-! ## From directory to directory -/

private theorem of_concat_prefix {path : Path} {front : List Component}
    {last : Component} (h : front ++ [last] <+: path.components)
    (hne : front ≠ []) (hparent : ".." ∉ path.steps) :
    ∃ name, last = .normal name ∧ isStep name = true ∧ name ≠ ".." := by
  obtain ⟨first, others, rfl⟩ := List.exists_cons_of_ne_nil hne
  have hmem : last ∈ path.pieces.filterMap component? := by
    obtain ⟨rest, hrest⟩ := h
    unfold components at hrest
    split_ifs at hrest
    · have hmid : others ++ [last] ++ rest = path.pieces.filterMap component? :=
        (List.cons.inj hrest).2
      simp [← hmid]
    · have hmid : others ++ [last] ++ rest = path.pieces.filterMap component? :=
        (List.cons.inj hrest).2
      simp [← hmid]
    · have hall : first :: others ++ [last] ++ rest =
          path.pieces.filterMap component? := hrest
      simp [← hall]
  obtain ⟨piece, hpiece, hcomponent⟩ := List.mem_filterMap.1 hmem
  obtain ⟨htext, hstep, hroot⟩ := component?_eq_some hcomponent
  have hne : piece ≠ ".." := fun heq =>
    hparent (List.mem_filter.2 ⟨heq ▸ hpiece, heq ▸ hstep⟩)
  cases last with
  | root => exact absurd rfl hroot
  | current => simp [← htext, Component.text, isStep] at hstep
  | parent => exact absurd htext.symm hne
  | normal name =>
      obtain rfl : name = piece := htext
      exact ⟨name, rfl, hstep, hne⟩

structure LeadsOn (outer path : Path) : Prop where
  isAbsolute_eq : outer.isAbsolute = path.isAbsolute
  steps_eq : outer.steps = (routeOf path).before.filter isStep
  ends : isDots (routeOf path).last = false

private theorem leadsOn_ofComponents {path : Path} {front : List Component}
    {last : Component} (h : front ++ [last] <+: path.components)
    (hparent : ".." ∉ path.steps) : (ofComponents front).text = "" ∨
    LeadsOn (ofComponents front) (ofComponents (front ++ [last])) := by
  by_cases hne : front = []
  · exact .inl (by rw [hne]; decide)
  obtain ⟨name, rfl, hstep, hname⟩ := of_concat_prefix h hne hparent
  have hfront : front <+: path.components := (List.prefix_append ..).trans h
  obtain ⟨hempty, hcurrent⟩ : name ≠ "" ∧ name ≠ "." := by
    simpa [isStep] using hstep
  have hpieces := pieces_ofComponents h (by simp) fun hroot => by
    simpa using congrArg List.getLast? hroot
  rw [List.map_append] at hpieces
  have hroute := routeOf_of_ne_empty hempty hpieces
  have hsteps : (ofComponents (front ++ [.normal name])).steps ≠ [] := by
    simp [steps, hpieces, Component.text, hstep]
  refine (prefix_of_ofComponents hfront).imp id fun houter => ⟨?_, ?_, ?_⟩
  · rcases prefix_of_ofComponents h with htext | hinner
    · exact absurd (steps_of_empty htext) hsteps
    · rw [houter.1, hinner.1]
  · rw [hroute, steps_ofComponents hfront]
  · rw [hroute]
    simp [isDots, hcurrent, hname]

private theorem isChain_directories {path : Path}
    (hends : isDots (routeOf path).last = false) (hparent : ".." ∉ path.steps) :
    List.IsChain (fun path outer => outer.text = "" ∨ LeadsOn outer path)
      (path :: path.directories) := by
  have hchain : ∀ front, front <+: path.components →
      List.IsChain (fun path outer => outer.text = "" ∨ LeadsOn outer path)
        (ofComponents front :: directoriesOf front.reverse) := by
    intro front
    induction front using List.reverseRecOn with
    | nil => exact fun _ => .singleton _
    | append_singleton front last ih =>
        intro hfront
        rcases directoriesOf_concat front last with hnone | hmore
        · rw [hnone]
          exact .singleton _
        · rw [hmore]
          exact .cons_cons (leadsOn_ofComponents hfront hparent)
            (ih ((List.prefix_append ..).trans hfront))
  unfold directories
  rcases List.eq_nil_or_concat path.components
    with hnil | ⟨front, last, hcomponents⟩
  · rw [hnil]
    exact .singleton _
  · rw [List.concat_eq_append] at hcomponents
    rw [hcomponents]
    rcases directoriesOf_concat front last with hnone | hmore
    · rw [hnone]
      exact .singleton _
    · rw [hmore]
      have hall : front ++ [last] <+: path.components :=
        hcomponents ▸ List.prefix_refl _
      have hfront : front <+: path.components :=
        (List.prefix_append ..).trans hall
      refine .cons_cons ?_ (hchain front hfront)
      by_cases hne : front = []
      · exact .inl (by rw [hne]; decide)
      obtain ⟨name, rfl, hstep, -⟩ := of_concat_prefix hall hne hparent
      refine (prefix_of_ofComponents hfront).imp id fun houter =>
        ⟨houter.1, ?_, hends⟩
      have hsteps := steps_eq_components path
      rw [hcomponents, List.map_append, List.filter_append,
        ← steps_ofComponents hfront, steps_eq_concat hends] at hsteps
      exact (List.append_inj' hsteps (by simp [Component.text, hstep])).1.symm

end Path

namespace Store

open Path (isStep LeadsOn)

/-! ## Ways with a step that is too long -/

private theorem check_bind_enter (store : Store) (place : Place)
    (pieces : List String) :
    (enter.check store place >>= fun found => store.enter found pieces) =
      store.enter place pieces := by
  unfold enter.check
  cases hnode : store.node? place with
  | none => cases pieces <;> simp [enter, enter.check, hnode] <;> rfl
  | some node =>
      cases node with
      | directory => rfl
      | file content =>
          cases pieces <;> simp [enter, enter.check, hnode] <;> rfl

private theorem enter_append (store : Store) (place : Place)
    (pieces pieces' : List String) : store.enter place (pieces ++ pieces') =
      store.enter place pieces >>= fun found => store.enter found pieces' := by
  induction pieces generalizing place with
  | nil => exact (check_bind_enter store place pieces').symm
  | cons piece rest ih => simp only [List.cons_append, enter, bind_assoc, ih]

private theorem enter_filter (store : Store) (place : Place)
    (pieces : List String) :
    store.enter place (pieces.filter isStep) = store.enter place pieces := by
  induction pieces generalizing place with
  | nil => rfl
  | cons piece rest ih =>
      by_cases hstep : isStep piece = true
      · simp only [List.filter_cons_of_pos hstep, enter, ih]
      · have hstay : ∀ place, descend place piece = .ok place := fun place => by
          rw [descend,
            if_pos (Decidable.or_iff_not_imp_left.2
              (by simpa [isStep] using hstep))]
        rw [List.filter_cons_of_neg hstep, ih, enter]
        simp only [hstay]
        exact (check_bind_enter store place rest).symm

/-- A way on which some step is too long, behind directories that are there. -/
def IsStuck (store : Store) (path : Path) : Prop :=
  store.enter (startOf store.here path) path.steps = .error .nameTooLong

variable {store after : Store} {path outer : Path}

private theorem IsStuck.leadsOn (h : IsStuck store outer)
    (hleads : LeadsOn outer path) : IsStuck store path := by
  have hstart : startOf store.here path = startOf store.here outer := by
    rw [startOf, ← hleads.isAbsolute_eq, startOf]
  unfold IsStuck at h ⊢
  rw [hstart, ← steps_routeOf, ← hleads.steps_eq, enter_append, h]
  rfl

section Last

variable (haccepted : IsAccepted path)
  (hends : isDots (routeOf path).last = false)

include haccepted

private theorem enterRoute_of_isAccepted : store.enterRoute path =
    store.enter (startOf store.here path)
      ((routeOf path).before.filter isStep) := by
  rw [enterRoute, if_neg (by simpa using haccepted.no_nul),
    if_neg haccepted.ne_empty, if_neg (Nat.not_lt.2 haccepted.short),
    enter_filter, startOf]

include hends

private theorem makeDirectory_of_isStuck (h : IsStuck store path) :
    store.makeDirectory path = .error .nameTooLong := by
  unfold IsStuck at h
  rw [steps_eq_concat hends, enter_append] at h
  unfold makeDirectory
  rw [enterRoute_of_isAccepted haccepted]
  cases henter :
    store.enter (startOf store.here path) ((routeOf path).before.filter isStep)
      with
  | error error =>
      rw [henter] at h
      exact congrArg Except.error (Except.error.inj h)
  | ok parent =>
      have hcheck : enter.check store parent ≠ .error .nameTooLong ∧
          ∀ found, enter.check store parent = .ok found → found = parent := by
        unfold enter.check
        split <;> simp_all
      rw [henter] at h
      obtain ⟨hlong, hfound⟩ := hcheck
      change (enter.check store parent >>= fun place =>
        descend place (routeOf path).last >>=
        fun next => enter.check store next) = _ at h
      cases hat : enter.check store parent with
      | error error =>
          rw [hat] at h hlong
          exact absurd h hlong
      | ok found =>
          obtain rfl := hfound found hat
          rw [hat] at h
          change (descend found (routeOf path).last >>= fun next =>
              enter.check store next) = _ at h
          cases hdescend : descend found (routeOf path).last with
          | error error =>
              rw [hdescend] at h
              obtain rfl : error = .nameTooLong := Except.error.inj h
              simp only [Bind.bind, Except.bind, hdescend]
          | ok place =>
              rw [hdescend] at h
              change enter.check store place = _ at h
              unfold enter.check at h
              split at h <;> simp at h

end Last

/-! ## Refusals -/

private theorem isAccepted_of_notFound (hne : path.text ≠ "")
    (h : store.makeDirectory path = .error .notFound) : IsAccepted path := by
  by_contra haccepted
  have henter : store.enterRoute path = .error .noName ∨
      store.enterRoute path = .error .nameTooLong := by
    unfold enterRoute
    by_cases hnul : '\x00' ∈ path.text.toList
    · exact .inl (if_pos (by simpa using hnul))
    · by_cases hlong : pathLimit < path.text.utf8ByteSize
      · exact .inr
          (by rw [if_neg (by simpa using hnul), if_neg hne, if_pos hlong])
      · exact absurd ⟨hnul, hne, Nat.not_lt.1 hlong⟩ haccepted
  rcases henter with henter | henter <;> simp [makeDirectory, henter, Bind.bind,
    Except.bind] at h

private theorem makeFirst_of_empty {outer : List Path} (h : path.text = "") :
    makeFirst (path :: outer) store = (.ok (), store) := if_pos h

private theorem makeDirectory_ne_notFound (haccepted : IsAccepted path)
    (hopen : IsOpen store (startOf store.here path)
      ((routeOf path).before.filter isStep)) :
    store.makeDirectory path ≠ .error .notFound := by
  have henter := enterRoute_eq_ok_iff.2 ⟨haccepted, hopen, rfl⟩
  simp only [makeDirectory, henter, Bind.bind, Except.bind]
  unfold descend
  split_ifs <;> simp <;> split <;> simp

/-- Behind the directory that it lies in a directory is refused for its name
alone, unless something is there. -/
theorem isStuck_of_makeDirectory {error : StoreError}
    (haccepted : IsAccepted path) (hends : isDots (routeOf path).last = false)
    (hopen : IsOpen store (startOf store.here path)
      ((routeOf path).before.filter isStep))
    (hnone : store.node? (placeOf store.here path) = none)
    (h : store.makeDirectory path = .error error) : error = .nameTooLong ∧
    IsStuck store path := by
  have hlong : nameLimit < (routeOf path).last.utf8ByteSize := by
    by_contra hshort
    have hname := isName_last haccepted hends (Nat.not_lt.1 hshort)
    rw [makeDirectory_eq_ok_iff.2 ⟨haccepted, hopen, hname, hnone, rfl⟩] at h
    cases h
  obtain ⟨hstep, hparent, -⟩ := isStep_last hends
  have hdescend : ∀ place, descend place (routeOf path).last =
      .error .nameTooLong := fun place => by
    rw [descend, if_neg (by simpa [isStep] using hstep), if_neg hparent,
      if_pos hlong]
  have hstuck : IsStuck store path := by
    have henter := enter_eq_ok_iff.2 ⟨hopen, rfl⟩
    rw [← enter_filter] at henter
    have hcheck : enter.check store (placeFrom (startOf store.here path)
        ((routeOf path).before.filter isStep)) =
        .ok
          (placeFrom (startOf store.here path)
            ((routeOf path).before.filter isStep)) := by
      rw [enter.check, hopen.directories _ (placeFrom_mem_walkFrom _ _)]
    rw [IsStuck, steps_eq_concat hends, enter_append, henter]
    simp only [Bind.bind, Except.bind, enter, hcheck, hdescend]
  refine ⟨?_, hstuck⟩
  rw [makeDirectory_of_isStuck haccepted hends hstuck] at h
  exact (Except.error.inj h).symm

private theorem Grows.node?_eq_none (h : Grows store after)
    (htree : IsTree store) (haccepted : IsAccepted path)
    (hends : isDots (routeOf path).last = false) (hparent : ".." ∉ path.steps)
    (hmissing : store.makeDirectory path = .error .notFound)
    (hopen : IsOpen after (startOf after.here path)
      ((routeOf path).before.filter isStep))
    (hnot : after.isDirectory path = false) :
    after.node? (placeOf after.here path) = none := by
  cases hnode : after.node? (placeOf after.here path) with
  | none => rfl
  | some node =>
      cases node with
      | directory =>
          have hname := (h.isTree htree).names (placeOf after.here path)
            (by rw [hnode]; simp) (routeOf path).last
            (by simp [placeOf_eq_concat hends])
          have hdirectory : after.isDirectory path = true :=
            isDirectory_iff.2
              ⟨haccepted,
                (isOpen_steps_iff hends).2 ⟨hopen, hname.short, hnode⟩⟩
          exact absurd (hnot.symm.trans hdirectory) (by simp)
      | file content =>
          have hbefore : store.node? (placeOf store.here path) ≠ none := by
            rw [h.here_eq] at hnode
            rcases h.node?_eq (placeOf store.here path)
              with heq | ⟨-, hdirectory⟩
            · rw [← heq, hnode]
              simp
            · simp [hdirectory] at hnode
          exact absurd hmissing (makeDirectory_ne_notFound haccepted
            (isOpen_before hends hparent htree hbefore))

private theorem isStuck_of_makeFirst {nearest : Path} {others : List Path}
    {refused : StoreError} (htree : IsTree store) (haccepted : IsAccepted path)
    (hleads : LeadsOn nearest path) (hparent : ".." ∉ path.steps)
    (hmissing : store.makeDirectory path = .error .notFound)
    (hmade : makeFirst (nearest :: others) store = (.ok (), after))
    (hmake : after.makeDirectory path = .error refused)
    (hnot : after.isDirectory path = false) :
    after = store ∨ refused = .nameTooLong ∧ IsStuck after path := by
  have hspec := makeFirst_spec (nearest :: others) store
  rw [hmade] at hspec
  obtain ⟨hgrows, hnearest⟩ := hspec
  rcases hnearest nearest others rfl rfl with hnone | hdirectory
  · rw [makeFirst_of_empty hnone] at hmade
    cases hmade
    exact .inl rfl
  · have hopen := (isDirectory_iff.1 hdirectory).2
    rw [hleads.steps_eq, startOf, hleads.isAbsolute_eq] at hopen
    have hnone :=
      hgrows.node?_eq_none htree haccepted hleads.ends hparent hmissing
        hopen hnot
    exact .inr
      (isStuck_of_makeDirectory haccepted hleads.ends hopen hnone hmake)

private theorem makeFirst_refused {paths : List Path} {error : IoError}
    (htree : IsTree store)
    (hchain : List.IsChain
      (fun path outer => outer.text = "" ∨ LeadsOn outer path) paths)
    (hparents : ∀ path ∈ paths, ".." ∉ path.steps)
    (h : makeFirst paths store = (.error error, after)) :
    after = store ∨ ∃ path outer, paths = path :: outer ∧
    error = .store .nameTooLong ∧ IsStuck after path := by
  induction paths generalizing error after with
  | nil => cases h
  | cons path outer ih =>
      unfold makeFirst at h
      by_cases hempty : path.text = ""
      · rw [if_pos hempty] at h
        cases h
      rw [if_neg hempty] at h
      split at h
      · cases h
      · rename_i hmissing
        have haccepted := isAccepted_of_notFound hempty hmissing
        split at h
        · rename_i failure between hfailed
          obtain ⟨hfailure, rfl⟩ := Prod.mk.inj h
          obtain rfl := Except.error.inj hfailure
          refine (ih hchain.tail
            (fun path hpath => hparents path (.tail _ hpath)) hfailed).imp id ?_
          rintro ⟨nearest, others, rfl, hlong, hstuck⟩
          have hleads := (List.isChain_cons_cons.1 hchain).1.resolve_left
            fun hnone => by
            rw [makeFirst_of_empty hnone] at hfailed
            cases hfailed
          exact ⟨path, _, rfl, hlong, hstuck.leadsOn hleads⟩
        · rename_i between hmade
          split at h
          · cases h
          · rename_i refused hmake
            obtain ⟨rfl, rfl, hnot⟩ := of_makeFirst_refused h
            cases outer with
            | nil =>
                cases hmade
                exact .inl rfl
            | cons nearest others =>
                rcases (List.isChain_cons_cons.1 hchain).1 with hnone | hleads
                · rw [makeFirst_of_empty hnone] at hmade
                  cases hmade
                  exact .inl rfl
                · refine (isStuck_of_makeFirst htree haccepted hleads
                    (hparents path List.mem_cons_self) hmissing hmade hmake
                    hnot).imp id ?_
                  rintro ⟨rfl, hstuck⟩
                  exact ⟨path, _, rfl, rfl, hstuck⟩
      · exact .inl (of_makeFirst_refused h).1

private theorem IsStuck.node?_ne (h : IsStuck store path) (htree : IsTree store)
    (hends : isDots (routeOf path).last = false) (hparent : ".." ∉ path.steps) :
    store.node? (placeOf store.here path) ≠ some .directory := by
  intro hnode
  have hsome : store.node? (placeOf store.here path) ≠ none := by simp [hnode]
  have hname := htree.names _ hsome (routeOf path).last
    (by simp [placeOf_eq_concat hends])
  have hopen : IsOpen store (startOf store.here path) path.steps :=
    (isOpen_steps_iff hends).2 ⟨isOpen_before hends hparent htree hsome,
      hname.short, hnode⟩
  have henter : store.enter (startOf store.here path) path.pieces = .ok _ :=
    enter_eq_ok_iff.2 ⟨hopen, rfl⟩
  rw [← enter_filter] at henter
  exact absurd (h.symm.trans henter) (by simp)

private theorem makeDirectories_of_open {error : IoError}
    (haccepted : IsAccepted path)
    (hopen : IsOpen store (startOf store.here path)
      ((routeOf path).before.filter isStep))
    (h : makeDirectories path store = (.error error, after)) :
    after = store := by
  have hfound := makeDirectory_ne_notFound haccepted hopen
  unfold makeDirectories makeFirst at h
  rw [if_neg haccepted.ne_empty] at h
  split at h
  · cases h
  · rename_i hmissing
    exact absurd hmissing hfound
  · exact (of_makeFirst_refused h).1

/-- A directory that could not be made cannot be made again, and nothing more is
made of what is around it. -/
theorem makeDirectories_again {error : IoError} (htree : IsTree store)
    (haccepted : IsAccepted path) (hends : isDots (routeOf path).last = false)
    (hway : ".." ∉ path.steps ∨
      IsOpen store (startOf store.here path)
        ((routeOf path).before.filter isStep))
    (hnone : store.node? (placeOf store.here path) = none)
    (h : makeDirectories path store = (.error error, after)) :
    makeDirectories path after = (.error error, after) ∧
      after.node? (placeOf after.here path) = none := by
  have hgrows := (makeDirectories_spec path store).1
  rw [h] at hgrows
  rcases hway with hparent | hopen
  · have hparents : ∀ made ∈ path :: path.directories, ".." ∉ made.steps := by
      refine List.forall_mem_cons.2 ⟨hparent, fun made hmade => ?_⟩
      rcases Path.of_mem_directories hmade with hempty | ⟨-, hbegins⟩
      · simp [Path.steps_of_empty hempty]
      · exact fun hmem => hparent (hbegins.subset hmem)
    rcases makeFirst_refused htree (Path.isChain_directories hends hparent)
      hparents h with rfl | ⟨_, _, hpaths, rfl, hstuck⟩
    · exact ⟨h, hnone⟩
    · obtain ⟨rfl, -⟩ := List.cons.inj hpaths
      have hdirectory := hstuck.node?_ne (hgrows.isTree htree) hends hparent
      have hnot : after.isDirectory path = false := by
        by_contra hmade
        obtain ⟨-, hopen⟩ := isDirectory_iff.1 (by simpa using hmade)
        exact hdirectory (hopen.directories _ (placeFrom_mem_walkFrom _ _))
      constructor
      · simp only [makeDirectories, makeFirst, if_neg haccepted.ne_empty,
          makeDirectory_of_isStuck haccepted hends hstuck,
          makeFirst.refused, hnot]
        rfl
      · rcases hgrows.node?_eq (placeOf after.here path) with heq | hmade
        · rw [heq, hgrows.here_eq, hnone]
        · exact absurd hmade.2 hdirectory
  · obtain rfl := makeDirectories_of_open haccepted hopen h
    exact ⟨h, hnone⟩

end Store

end JobChain
