import JobChain.Proofs.Store.Confined
import JobChain.Proofs.Store.Deletions

/-!
# Erasing what a path leads to

A path to an output is cleared by deleting what it finds. Where the path finds
whatever is at its end, and leads to it past nothing that is deleted, nothing is
left there. Then the directories can be made again that lead to the end.
-/

namespace JobChain.Store

open Path (isStep)

variable {store other : Store} {path : Path}

/-- A path at whose end all can be erased that is there. -/
structure IsErasable (store : Store) (path : Path) : Prop where
  accepted : IsAccepted path
  ends : isDots (routeOf path).last = false
  plain : (routeOf path).slashed = true →
    ∀ content, store.node? (placeOf store.here path) ≠ some (.file content)
  outside :
    ∀ passed ∈ walkFrom (startOf store.here path)
      ((routeOf path).before.filter isStep),
    ¬placeOf store.here path <+: passed
  reached : store.node? (placeOf store.here path) ≠ none →
    IsOpen store (startOf store.here path) ((routeOf path).before.filter isStep)

section Forward

variable (hends : isDots (routeOf path).last = false)
  (hparent : ".." ∉ path.steps)

include hends hparent

private theorem not_below_before (here : Place) :
    ∀ passed ∈ walkFrom (startOf here path)
      ((routeOf path).before.filter isStep), passed <+: placeOf here path ∧
      ¬placeOf here path <+: passed := by
  intro passed hpassed
  have hbefore : ".." ∉ (routeOf path).before.filter isStep := fun hmem =>
    hparent (steps_routeOf path ▸ List.mem_append_left _ hmem)
  have hbegins := (prefix_of_mem_walkFrom hbefore hpassed).2
  rw [placeOf_eq_concat hends]
  refine ⟨hbegins.trans (List.prefix_append _ _), fun hbelow => ?_⟩
  have hlength := (hbelow.trans hbegins).length_le
  rw [List.length_append, List.length_singleton] at hlength
  omega

theorem isOpen_before (htree : IsTree store)
    (hsome : store.node? (placeOf store.here path) ≠ none) :
    IsOpen store (startOf store.here path)
      ((routeOf path).before.filter isStep) := by
  have hbefore : ".." ∉ (routeOf path).before.filter isStep := fun hmem =>
    hparent (steps_routeOf path ▸ List.mem_append_left _ hmem)
  refine ⟨fun passed hpassed => ?_, fun step hstep => ?_⟩
  · obtain ⟨hbegins, hbelow⟩ :=
      not_below_before hends hparent store.here passed hpassed
    exact htree.directory_around hbegins
      (fun heq => hbelow (heq ▸ List.prefix_refl _)) hsome
  · refine (htree.names _ hsome step ?_).short
    rw [placeOf_eq_concat hends, placeFrom_of_no_parent hbefore]
    simp [hstep]

theorem isErasable_of_no_parent (htree : IsTree store)
    (haccepted : IsAccepted path) (hplain : (routeOf path).slashed = true →
      ∀ content, store.node? (placeOf store.here path) ≠ some (.file content)) :
    IsErasable store path where
  accepted := haccepted
  ends := hends
  plain := hplain
  outside passed hpassed :=
    (not_below_before hends hparent store.here passed hpassed).2
  reached := isOpen_before hends hparent htree

end Forward

def erased (store : Store) (path : Path) : Store :=
  if store.has path then (delete path true store).2 else store

def cleared (store : Store) (path : Path) (overwrite : Bool) : Store :=
  if overwrite then store.erased path else store

theorem shrinks_erased (path : Path) (store : Store) :
    Shrinks store (store.erased path) fun place => placeOf store.here path <+:
      place := by
  unfold erased
  split_ifs
  · exact delete_shrinks path store
  · exact .refl _ _

theorem erased_of_empty
    (hempty : path.text = "") : store.erased path = store := by
  have hhas : store.has path = false := by
    simp [has, find, enterRoute, hempty, Bind.bind, Except.bind, Except.isOk,
      Except.toBool]
  rw [erased, hhas, if_neg Bool.false_ne_true]

theorem shrinks_cleared (path : Path) (overwrite : Bool) (store : Store) :
    Shrinks store (store.cleared path overwrite)
      fun place => overwrite = true ∧ placeOf store.here path <+: place := by
  cases overwrite with
  | false => exact .refl _ _
  | true => exact (shrinks_erased path store).mono fun _ hbelow => ⟨rfl, hbelow⟩

private theorem has_iff :
    store.has path = true ↔ ∃ found, store.find path = .ok found := by
  unfold has
  cases store.find path <;> simp [Except.isOk, Except.toBool]

namespace IsErasable

variable (h : IsErasable store path)

include h

theorem ne_nil : placeOf store.here path ≠ [] := by
  simp [placeOf_eq_concat h.ends]

theorem isName (htree : IsTree store)
    (hsome : store.node? (placeOf store.here path) ≠ none) :
    IsName (routeOf path).last :=
  htree.names _ hsome _ (by simp [placeOf_eq_concat h.ends])

private theorem find_eq (htree : IsTree store) {node : Node}
    (hnode : store.node? (placeOf store.here path) = some node) :
    store.find path = .ok (placeOf store.here path, node) := by
  have hsome : store.node? (placeOf store.here path) ≠ none := by simp [hnode]
  refine find_eq_ok_iff.2 ⟨h.accepted, h.reached hsome, fun step hstep => ?_,
    rfl, hnode, ?_⟩
  · obtain rfl := List.mem_singleton.1 (List.mem_filter.1 hstep).1
    exact (h.isName htree hsome).short
  · cases node with
    | directory => exact .inl rfl
    | file content =>
        refine .inr ?_
        by_contra hslashed
        exact h.plain (by simpa using hslashed) content hnode

theorem has_eq (htree : IsTree store) :
    store.has path = (store.node? (placeOf store.here path)).isSome := by
  rw [Bool.eq_iff_iff, has_iff]
  constructor
  · rintro ⟨⟨place, node⟩, hfind⟩
    obtain ⟨rfl, hnode⟩ := find_eq_ok hfind
    simp [hnode]
  · intro hsome
    obtain ⟨node, hnode⟩ := Option.isSome_iff_exists.1 hsome
    exact ⟨_, h.find_eq htree hnode⟩

/-- Whatever is at the end of the path goes with all that lies below, and
deleting it is not refused. -/
theorem loses_delete (htree : IsTree store)
    (hsome : store.node? (placeOf store.here path) ≠ none) :
    ∃ removed, delete path true store = (.ok true, removed) ∧
      Loses store removed fun place => placeOf store.here path <+: place := by
  obtain ⟨node, hnode⟩ := Option.ne_none_iff_exists'.1 hsome
  have hfind := h.find_eq htree hnode
  cases node with
  | file content =>
      exact ⟨_, by simp [delete, hfind], loses_remove_file htree hnode⟩
  | directory =>
      have hremove := removeEmpty_clear h.accepted (h.isName htree hsome)
        (h.reached hsome)
        (fun passed hpassed hbelow =>
          absurd hbelow (h.outside passed hpassed)) hnode
      exact ⟨_, by
        simp [delete, hfind, hremove], loses_clear_remove store h.ne_nil⟩

theorem loses_erased (htree : IsTree store) :
    Loses store (store.erased path) fun place => placeOf store.here path <+:
      place := by
  unfold erased
  rw [h.has_eq htree]
  by_cases hnone : store.node? (placeOf store.here path) = none
  · rw [if_neg (by simp [hnone])]
    refine ⟨rfl, fun place hbelow => ?_, fun _ _ => rfl⟩
    by_cases heq : placeOf store.here path = place
    · exact heq ▸ hnone
    · exact htree.eq_none_below hbelow heq (by simp [hnone])
  · obtain ⟨removed, hdelete, hloses⟩ := h.loses_delete htree hnone
    rw [if_pos (by simpa [Option.isSome_iff_ne_none] using hnone), hdelete]
    exact hloses

end IsErasable

/-! ## Making directories -/

private theorem makeDirectories_kept {place : Place}
    (hplace : place ∉ walkFrom (startOf store.here path) path.steps) :
    (makeDirectories path store).2.node? place = store.node? place := by
  have hfirst : ∀ (paths : List Path) (store : Store),
      (∀ made ∈ paths, made.text = "" ∨ place ≠ placeOf store.here made) →
        (makeFirst paths store).2.node? place = store.node? place := by
    intro paths
    induction paths with
    | nil => exact fun _ _ => rfl
    | cons made outer ih =>
        intro store hpaths
        obtain ⟨hmade, houter⟩ := List.forall_mem_cons.1 hpaths
        have hput : ∀ {before after : Store}, made.text ≠ "" →
            before.here = store.here → before.makeDirectory made = .ok after →
            after.node? place = before.node? place := by
          intro before after hne hhere hmake
          obtain ⟨-, -, hname, -, rfl⟩ := makeDirectory_eq_ok_iff.1 hmake
          have hends := placeOf_eq_concat (isDots_of_isName hname) before.here
          rw [node?_put _ _ _ _ (by simp [hends]), if_neg]
          exact hhere ▸ hmade.resolve_left hne
        unfold makeFirst
        by_cases hempty : made.text = ""
        · rw [if_pos hempty]
        · rw [if_neg hempty]
          split
          · rename_i after hmake
            exact hput hempty rfl hmake
          · have hbetween := ih store houter
            have hhere := (makeFirst_spec outer store).1.here_eq
            generalize makeFirst outer store = result at hbetween hhere
            obtain ⟨_ | _, between⟩ := result
            · exact hbetween
            · dsimp only at hbetween hhere ⊢
              split
              · rename_i after hmake
                exact (hput hempty hhere hmake).trans hbetween
              · exact hbetween
          · rfl
  refine hfirst _ _ (List.forall_mem_cons.2 ⟨.inr ?_, fun made hmade => ?_⟩)
  · rintro rfl
    exact hplace (placeFrom_mem_walkFrom _ _)
  · refine (Path.of_mem_directories hmade).imp id fun hbegins => ?_
    rintro rfl
    obtain ⟨habsolute, rest, hsteps⟩ := hbegins
    have hstart : startOf store.here made = startOf store.here path := by
      rw [startOf, habsolute, startOf]
    refine hplace (hsteps ▸ mem_walkFrom_append_left ?_ rest)
    exact hstart ▸ placeFrom_mem_walkFrom _ _

namespace IsErasable

theorem makeDirectories_below (h : IsErasable store path) {place : Place}
    (hbelow : isBelow (placeOf store.here path) place = true) :
    (makeDirectories path store).2.node? place = store.node? place := by
  obtain ⟨hbegins, hne⟩ := isBelow_iff.1 hbelow
  refine makeDirectories_kept fun hpassed => ?_
  rw [steps_eq_concat h.ends, walkFrom_concat, List.mem_append,
    List.mem_singleton, stepFrom, if_neg (isStep_last h.ends).2.1,
    ← placeOf_eq_concat h.ends] at hpassed
  rcases hpassed with hpassed | heq
  · exact h.outside place hpassed hbegins
  · exact hne heq.symm

end IsErasable

theorem makeDirectories_of_isOpen (haccepted : IsAccepted path)
    (hname : IsName (routeOf path).last)
    (hopen : IsOpen store (startOf store.here path)
      ((routeOf path).before.filter isStep))
    (hnone : store.node? (placeOf store.here path) = none) :
    makeDirectories path store =
      (.ok (), store.put (placeOf store.here path) .directory) := by
  have hmake := makeDirectory_eq_ok_iff.2 ⟨haccepted, hopen, hname, hnone, rfl⟩
  simp only [makeDirectories, makeFirst, if_neg haccepted.ne_empty, hmake]

end JobChain.Store
