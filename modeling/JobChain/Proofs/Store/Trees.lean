import JobChain.Proofs.Store.Ways
import Mathlib.Data.List.Induction

/-!
# Stores as trees

In a store as a file system keeps it every place is named by names, and lies in
a directory. The changes that a store allows keep that, and touch no more than
what they are about.
-/

namespace JobChain.Store

/-! ## What is at a place -/

theorem node?_put (store : Store) (place other : Place) (node : Node)
    (hne : place ≠ []) :
    (store.put place node).node? other = if other = place then some node
      else store.node? other := by
  by_cases hroot : other = []
  · simp [node?, hroot, Ne.symm hne]
  · simp [node?, put, hroot, SortedMap.get?_insert]

theorem node?_remove (store : Store) (place other : Place) (hne : place ≠ []) :
    (store.remove place).node? other =
      if other = place then none else store.node? other := by
  by_cases hroot : other = []
  · simp [node?, hroot, Ne.symm hne]
  · simp [node?, remove, hroot, SortedMap.get?_erase]

theorem isBelow_iff {place other : Place} :
    isBelow place other = true ↔ place <+: other ∧ place ≠ other := by
  simp [isBelow]

theorem node?_clear (store : Store) (place other : Place) :
    (store.clear place).node? other =
      if place <+: other ∧ place ≠ other then none else store.node? other := by
  by_cases hroot : other = []
  · simp [node?, hroot]
  · have hbelow := @isBelow_iff place other
    cases hfound : store.nodes.get? other with
    | none => simp [node?, clear, hroot, SortedMap.get?_filter, hfound]
    | some node =>
        by_cases hb : place <+: other ∧ place ≠ other
        · simp [node?, clear, hroot, SortedMap.get?_filter, hfound, hb,
            hbelow.2 hb]
        · have hnot : isBelow place other = false := by
            simpa using fun h => hb (hbelow.1 h)
          simp [node?, clear, hroot, SortedMap.get?_filter, hfound, hb, hnot]

private theorem eq_concat_iff {place other : Place} {name : String} :
    (isBelow place other && decide (other.length = place.length + 1)) = true ∧
      other.getLast? = some name ↔ other = place ++ [name] := by
  rw [Bool.and_eq_true, isBelow_iff, decide_eq_true_iff]
  constructor
  · rintro ⟨⟨⟨⟨rest, rfl⟩, -⟩, hlength⟩, hlast⟩
    obtain ⟨step, rfl⟩ : ∃ step, rest = [step] :=
      List.length_eq_one_iff.1 (by simpa using hlength)
    simpa using hlast
  · rintro rfl
    simp

theorem mem_namesIn {store : Store} {place : Place} {name : String} :
    name ∈ store.namesIn place ↔ (store.node? (place ++ [name])).isSome =
      true := by
  have hne : place ++ [name] ≠ [] := by simp
  rw [node?, if_neg hne, Option.isSome_iff_exists, namesIn, List.mem_filterMap]
  simp only [SortedMap.get?_eq_some_iff]
  constructor
  · rintro ⟨⟨other, node⟩, hentry, hname⟩
    split at hname
    · rename_i hinside
      obtain rfl := eq_concat_iff.1 ⟨hinside, hname⟩
      exact ⟨node, hentry⟩
    · cases hname
  · rintro ⟨node, hentry⟩
    obtain ⟨hinside, hlast⟩ :=
      eq_concat_iff.2 (rfl : place ++ [name] = place ++ [name])
    exact ⟨_, hentry, by rw [if_pos hinside, hlast]⟩

private theorem compare_append {α : Type} [Ord α] [Std.ReflOrd α]
    (outer xs ys : List α) :
    compare (outer ++ xs) (outer ++ ys) = compare xs ys := by
  induction outer with
  | nil => rfl
  | cons x rest ih => simp [List.compare_cons_cons, ih]

theorem sorted_namesIn (store : Store) (place : Place) :
    (store.namesIn place).Pairwise fun name name' => compare name name' =
      .lt := by
  refine List.Pairwise.filterMap _ ?_ store.nodes.sorted
  rintro ⟨other, node⟩ ⟨other', node'⟩ hlt name hname name' hname'
  split at hname
  · rename_i hinside
    split at hname'
    · rename_i hinside'
      obtain rfl := eq_concat_iff.1 ⟨hinside, hname⟩
      obtain rfl := eq_concat_iff.1 ⟨hinside', hname'⟩
      simpa [compare_append, List.compare_cons_cons] using hlt
    · cases hname'
  · cases hname

theorem nodup_namesIn (store : Store)
    (place : Place) : (store.namesIn place).Nodup :=
  (store.sorted_namesIn place).imp fun hlt heq => by simp [heq] at hlt

theorem filter_namesIn_congr {before after : Store} {place : Place}
    {test : String → Bool} (h : ∀ name, test name = true →
      after.node? (place ++ [name]) = before.node? (place ++ [name])) :
    (after.namesIn place).filter test = (before.namesIn place).filter test := by
  have hperm :
      ((after.namesIn place).filter test).Perm
        ((before.namesIn place).filter test) := by
    refine (List.perm_ext_iff_of_nodup ((nodup_namesIn _ _).filter _)
      ((nodup_namesIn _ _).filter _)).2 fun name => ?_
    simp only [List.mem_filter, mem_namesIn]
    exact and_congr_left fun htest => by rw [h name htest]
  refine hperm.eq_of_pairwise ?_ ((sorted_namesIn _ _).filter _)
    ((sorted_namesIn _ _).filter _)
  intro name name' _ _ hlt hlt'
  exact absurd (Std.TransCmp.lt_trans hlt hlt') (by simp)

/-! ## Trees -/

structure IsTree (store : Store) : Prop where
  names : ∀ place, store.node? place ≠ none → ∀ name ∈ place, IsName name
  around : ∀ place name, store.node? (place ++ [name]) ≠ none →
    store.node? place = some .directory

theorem IsTree.isName {store : Store} (h : IsTree store) {place : Place}
    {name : String} (hname : name ∈ store.namesIn place) : IsName name := by
  rw [mem_namesIn, Option.isSome_iff_ne_none] at hname
  exact h.names _ hname name (by simp)

theorem IsTree.directory_around {store : Store} (h : IsTree store)
    {place other : Place} (hbelow : place <+: other) (hne : place ≠ other)
    (hother : store.node? other ≠ none) :
    store.node? place = some .directory := by
  obtain ⟨rest, rfl⟩ := hbelow
  induction rest using List.reverseRecOn with
  | nil => simp at hne
  | append_singleton rest name ih =>
      rw [← List.append_assoc] at hother
      have hdirectory := h.around _ _ hother
      cases rest with
      | nil => simpa using hdirectory
      | cons first others => exact ih (by simp) (by simp [hdirectory])

theorem IsTree.eq_none_below {store : Store} (h : IsTree store)
    {place other : Place} (hbelow : place <+: other) (hne : place ≠ other)
    (hplace : store.node? place ≠ some .directory) :
    store.node? other = none := by
  by_cases hother : store.node? other = none
  · exact hother
  · exact absurd (h.directory_around hbelow hne hother) hplace

/-! ## Frames -/

/-- A store that has been changed at some places only. -/
structure ChangesAt (before after : Store) (aim : Place → Prop) : Prop where
  here_eq : after.here = before.here
  kept : ∀ place, ¬aim place → after.node? place = before.node? place
  isTree : IsTree before → IsTree after

/-- A store with other files at some places only, and with all directories as
they were. -/
structure Refills (before after : Store) (aim : Place → Prop) : Prop
    extends ChangesAt before after aim where
  directory_iff : ∀ place,
    after.node? place = some .directory ↔ before.node? place = some .directory

/-- A store that has lost things at some places only. -/
structure Shrinks (before after : Store) (aim : Place → Prop) : Prop
    extends ChangesAt before after aim where
  less : ∀ place, after.node? place = before.node? place ∨
      after.node? place = none

namespace ChangesAt

variable {before between after : Store} {aim aim' : Place → Prop}

theorem refl (store : Store) (aim : Place → Prop) : ChangesAt store store aim :=
  ⟨rfl, fun _ _ => rfl, id⟩

theorem mono (h : ChangesAt before after aim)
    (himp : ∀ place, aim place → aim' place) : ChangesAt before after aim' :=
  ⟨h.here_eq, fun place hplace => h.kept place fun haim =>
    hplace (himp place haim), h.isTree⟩

theorem trans (h : ChangesAt before between aim)
    (h' : ChangesAt between after aim) : ChangesAt before after aim where
  here_eq := h'.here_eq.trans h.here_eq
  kept place hplace := (h'.kept place hplace).trans (h.kept place hplace)
  isTree htree := h'.isTree (h.isTree htree)

theorem isOpen (h : ChangesAt before after aim) {start : Place}
    {way : List String} (hclear : ∀ passed ∈ walkFrom start way, ¬aim passed)
    (hopen : IsOpen before start way) : IsOpen after start way := by
  refine ⟨fun passed hpassed => ?_, hopen.short⟩
  rw [h.kept passed (hclear passed hpassed)]
  exact hopen.directories passed hpassed

end ChangesAt

namespace Refills

variable {before after : Store} {aim aim' : Place → Prop}

theorem refl (store : Store) (aim : Place → Prop) : Refills store store aim :=
  ⟨.refl store aim, fun _ => .rfl⟩

theorem mono (h : Refills before after aim)
    (himp : ∀ place, aim place → aim' place) : Refills before after aim' :=
  ⟨h.toChangesAt.mono himp, h.directory_iff⟩

theorem isOpen_iff (h : Refills before after aim) {start : Place}
    {way : List String} : IsOpen after start way ↔ IsOpen before start way :=
  ⟨fun hopen =>
      ⟨fun passed hpassed =>
        (h.directory_iff passed).1 (hopen.directories passed hpassed),
      hopen.short⟩,
    fun hopen =>
      ⟨fun passed hpassed =>
        (h.directory_iff passed).2 (hopen.directories passed hpassed),
      hopen.short⟩⟩

end Refills

namespace Shrinks

variable {before between after : Store} {aim aim' : Place → Prop}

theorem refl (store : Store) (aim : Place → Prop) : Shrinks store store aim :=
  ⟨.refl store aim, fun _ => .inl rfl⟩

theorem mono (h : Shrinks before after aim)
    (himp : ∀ place, aim place → aim' place) : Shrinks before after aim' :=
  ⟨h.toChangesAt.mono himp, h.less⟩

theorem trans (h : Shrinks before between aim)
    (h' : Shrinks between after aim) : Shrinks before after aim where
  toChangesAt := h.toChangesAt.trans h'.toChangesAt
  less place := by
    rcases h'.less place with heq | hnone
    · rw [heq]
      exact h.less place
    · exact .inr hnone

end Shrinks

/-! ## Losses -/

/-- A store without what was at some places, and with all else as it was. -/
structure Loses (before after : Store) (lost : Place → Prop) : Prop where
  here_eq : after.here = before.here
  gone : ∀ place, lost place → after.node? place = none
  kept : ∀ place, ¬lost place → after.node? place = before.node? place

namespace Loses

variable {before between after : Store} {lost lost' aim : Place → Prop}

theorem trans (h : Loses before between lost) (h' : Loses between after lost') :
    Loses before after fun place => lost place ∨ lost' place where
  here_eq := h'.here_eq.trans h.here_eq
  gone place hplace := by
    by_cases hlost : lost' place
    · exact h'.gone place hlost
    · rw [h'.kept place hlost]
      exact h.gone place (hplace.resolve_right hlost)
  kept place hplace := by
    rw [not_or] at hplace
    rw [h'.kept place hplace.2, h.kept place hplace.1]

theorem congr (h : Loses before after lost)
    (hiff : ∀ place, lost place ↔ lost' place) : Loses before after lost' where
  here_eq := h.here_eq
  gone place hplace := h.gone place ((hiff place).2 hplace)
  kept place hplace := h.kept place fun hlost => hplace ((hiff place).1 hlost)

theorem ne_none (h : Loses before after lost) {place : Place}
    (hplace : after.node? place ≠ none) :
    ¬lost place ∧ after.node? place = before.node? place := by
  have hnot : ¬lost place := fun hlost => hplace (h.gone place hlost)
  exact ⟨hnot, h.kept place hnot⟩

theorem isTree (h : Loses before after lost) (htree : IsTree before)
    (hbranch : ∀ place name, before.node? (place ++ [name]) ≠ none →
      lost place → lost (place ++ [name])) : IsTree after where
  names place hplace := by
    rw [(h.ne_none hplace).2] at hplace
    exact htree.names place hplace
  around place name hplace := by
    obtain ⟨hnot, heq⟩ := h.ne_none hplace
    rw [heq] at hplace
    rw [h.kept place fun hlost => hnot (hbranch place name hplace hlost)]
    exact htree.around place name hplace

theorem shrinks (h : Loses before after lost)
    (haim : ∀ place, lost place → aim place)
    (hbranch : IsTree before → ∀ place name,
      before.node? (place ++ [name]) ≠ none →
      lost place → lost (place ++ [name])) : Shrinks before after aim where
  here_eq := h.here_eq
  kept place hplace := h.kept place fun hlost => hplace (haim place hlost)
  isTree htree := h.isTree htree (hbranch htree)
  less place := by
    by_cases hlost : lost place
    · exact .inr (h.gone place hlost)
    · exact .inl (h.kept place hlost)

end Loses

end JobChain.Store
