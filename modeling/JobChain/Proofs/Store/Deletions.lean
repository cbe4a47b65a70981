import JobChain.Proofs.Store.Changes

/-!
# Deletions

What deleting paths one by one takes from a store when they lead into one
directory. The way there may lead through what is deleted, and then it is closed
behind it.
-/

namespace JobChain.Store

open Path (isStep)

variable {store after : Store} {path : Path}

/-! ## One path -/

private theorem removeEmpty_eq_ok (h : store.removeEmpty path = .ok after) :
    ∃ place, place = placeOf store.here path ∧ place ≠ [] ∧
      store.namesIn place = [] ∧ after = store.remove place := by
  simp only [removeEmpty, bind_eq_ok_iff] at h
  obtain ⟨parent, henter, h⟩ := h
  split at h
  · cases h
  rename_i hcurrent
  split at h
  · cases h
  rename_i hparent
  simp only [bind_eq_ok_iff] at h
  obtain ⟨place, hdescend, h⟩ := h
  split at h
  · cases h
  · cases h
  split at h
  · rename_i hempty
    obtain ⟨-, rfl, -, hplaceOf⟩ :=
      descend_last henter hdescend (by simp [isDots, hcurrent, hparent])
    cases h
    exact ⟨_, hplaceOf.symm, by simp, by simpa using hempty, rfl⟩
  · cases h

private theorem loses_clear (store : Store) (place : Place) :
    Loses store (store.clear place) fun other => place <+: other ∧
    place ≠ other where
  here_eq := rfl
  gone other hother := by rw [node?_clear, if_pos hother]
  kept other hother := by rw [node?_clear, if_neg hother]

private theorem loses_remove (store : Store) {place : Place}
    (hne : place ≠ []) :
    Loses store (store.remove place) fun other => other = place where
  here_eq := rfl
  gone other hother := by rw [node?_remove _ _ _ hne, if_pos hother]
  kept other hother := by rw [node?_remove _ _ _ hne, if_neg hother]

theorem loses_remove_file (htree : IsTree store) {place : Place}
    {content : Content} (hplace : store.node? place = some (.file content)) :
    Loses store (store.remove place) fun other => place <+: other := by
  have hne : place ≠ [] := by
    rintro rfl
    simp [node?] at hplace
  have hremove := loses_remove store hne
  refine ⟨rfl, fun other hother => ?_, fun other hother => ?_⟩
  · by_cases heq : other = place
    · exact hremove.gone other heq
    · rw [hremove.kept other heq]
      exact htree.eq_none_below hother (Ne.symm heq) (by simp [hplace])
  · exact hremove.kept other fun heq => hother (heq ▸ List.prefix_refl other)

theorem loses_clear_remove (store : Store) {place : Place} (hne : place ≠ []) :
    Loses store ((store.clear place).remove place) fun other =>
      place <+: other := by
  refine ((loses_clear store place).trans (loses_remove _ hne)).congr
    fun other => ?_
  constructor
  · rintro (⟨hbelow, -⟩ | rfl)
    · exact hbelow
    · exact List.prefix_refl other
  · intro hbelow
    by_cases heq : place = other
    · exact .inr heq.symm
    · exact .inl ⟨hbelow, heq⟩

theorem delete_shrinks (path : Path) (store : Store) :
    Shrinks store (delete path true store).2 fun place =>
      placeOf store.here path <+: place := by
  unfold delete
  split
  · exact .refl store _
  · exact .refl store _
  · rename_i place content hfind
    obtain ⟨rfl, hplace⟩ := find_eq_ok hfind
    have hne : placeOf store.here path ≠ [] := fun hroot => by
      simp [node?, hroot] at hplace
    refine (loses_remove store hne).shrinks
      (fun other heq => heq ▸ List.prefix_refl other) ?_
    intro htree other name hname heq
    simp [← heq, htree.around other name hname] at hplace
  · rename_i place hfind
    obtain ⟨rfl, hplace⟩ := find_eq_ok hfind
    have hcleared : Shrinks store (store.clear (placeOf store.here path))
        fun place => placeOf store.here path <+: place := by
      refine (loses_clear store _).shrinks (fun _ hlost => hlost.1) ?_
      rintro - other name - ⟨hbelow, hne⟩
      refine ⟨hbelow.trans (List.prefix_append ..), fun heq => ?_⟩
      have hlength := hbelow.length_le
      rw [heq, List.length_append, List.length_singleton] at hlength
      omega
    simp only [if_true]
    split
    · rename_i removed hremoved
      obtain ⟨_, rfl, hne, -, rfl⟩ := removeEmpty_eq_ok hremoved
      refine (loses_clear_remove _ hne).shrinks (fun _ hlost => hlost) ?_
      exact fun _ _ _ _ hbelow => hbelow.trans (List.prefix_append ..)
    · exact hcleared
    · exact hcleared

private theorem isAccepted_of_delete {found : Bool} (hne : path.text ≠ "")
    (hok : (delete path true store).1 = .ok found) : IsAccepted path := by
  have hrefused : ∀ error, error ≠ .notFound →
      store.enterRoute path ≠ .error error := by
    intro error hmissing henter
    have hfind : store.find path = .error error := by
      simp [find, henter, Bind.bind, Except.bind]
    unfold delete at hok
    rw [hfind] at hok
    cases error <;> simp_all
  by_cases hnul : path.text.toList.contains '\x00' = true
  · exact absurd (by rw [enterRoute, if_pos hnul]) (hrefused .noName (by simp))
  by_cases hlong : pathLimit < path.text.utf8ByteSize
  · exact absurd (by rw [enterRoute, if_neg hnul, if_neg hne, if_pos hlong])
      (hrefused .nameTooLong (by simp))
  · exact ⟨by simpa using hnul, hne, Nat.not_lt.1 hlong⟩

/-- What a deletion takes: all that lies below a place, and what is there unless
the way leads further below it. -/
def Takes (walked : List Place) (target other : Place) : Prop :=
  target <+: other ∧ (other = target → ∀ passed ∈ walked, target <+: passed →
    passed = target)

private theorem takes_iff_of_clear {walked : List Place} {target : Place}
    (hclear : ∀ passed ∈ walked, target <+: passed → passed = target)
    (other : Place) : target <+: other ↔ Takes walked target other :=
  ⟨fun hbelow => ⟨hbelow, fun _ => hclear⟩, And.left⟩

theorem removeEmpty_clear (haccepted : IsAccepted path)
    (hname : IsName (routeOf path).last)
    (hopen : IsOpen store (startOf store.here path)
      ((routeOf path).before.filter isStep))
    (hclear : ∀ passed ∈ walkFrom (startOf store.here path)
      ((routeOf path).before.filter isStep),
      placeOf store.here path <+: passed → passed = placeOf store.here path)
    (hplace : store.node? (placeOf store.here path) = some .directory) :
    (store.clear (placeOf store.here path)).removeEmpty path =
      .ok
        ((store.clear (placeOf store.here path)).remove
          (placeOf store.here path)) := by
  have hplaceOf := placeOf_eq_concat (isDots_of_isName hname) store.here
  generalize hplace' : placeOf store.here path = place at *
  have hcleared := loses_clear store place
  have henter : (store.clear place).enterRoute path =
      .ok
        (placeFrom (startOf store.here path)
          ((routeOf path).before.filter isStep)) := by
    rw [enterRoute_eq_ok_iff]
    refine ⟨haccepted, ⟨fun passed hpassed => ?_, hopen.short⟩, rfl⟩
    rw [hcleared.kept passed fun h => h.2 (hclear passed hpassed h.1).symm]
    exact hopen.directories passed hpassed
  have hdescend : descend (placeFrom (startOf store.here path)
      ((routeOf path).before.filter isStep)) (routeOf path).last =
      .ok place := by
    rw [descend_eq_ok_iff, hplaceOf]
    simp [Path.isStep_name hname, hname.short, stepFrom_name hname]
  have hdirectory : (store.clear place).node? place = some .directory := by
    rw [hcleared.kept place fun h => h.2 rfl, hplace]
  have hempty : (store.clear place).namesIn place = [] := by
    rw [List.eq_nil_iff_forall_not_mem]
    intro other hother
    have hgone :=
      hcleared.gone (place ++ [other]) ⟨List.prefix_append .., by simp⟩
    simp [mem_namesIn, hgone] at hother
  simp only [removeEmpty, henter, hname.ne_current, hname.ne_parent, if_false,
    Bind.bind, Except.bind, hdescend, hdirectory, hempty]
  rfl

private theorem isOpen_of_removeEmpty {before : List String} {name : String}
    (hname : IsName name) (hpieces : path.pieces = before ++ [name])
    (h : store.removeEmpty path = .ok after) :
    IsOpen store (startOf store.here path) (before.filter isStep) := by
  simp only [removeEmpty, bind_eq_ok_iff] at h
  obtain ⟨parent, henter, -⟩ := h
  obtain ⟨-, hopen, -⟩ := enterRoute_eq_ok_iff.1 henter
  rwa [routeOf_of_name hname hpieces] at hopen

section Named

variable {before : List String} {name : String} (htree : IsTree store)
  (hopen : IsOpen store (startOf store.here path) (before.filter isStep))

include htree

private theorem loses_delete_missing
    (hfind : store.find path = .error .notFound)
    (hplace : store.node? (placeOf store.here path) = none)
    (walked : List Place) :
    Loses store (delete path true store).2
      (Takes walked (placeOf store.here path)) := by
  have hdelete : delete path true store = (.ok false, store) := by
    simp [delete, hfind]
  rw [hdelete]
  refine ⟨rfl, fun place hbelow => ?_, fun _ _ => rfl⟩
  by_cases heq : placeOf store.here path = place
  · exact heq ▸ hplace
  · exact htree.eq_none_below hbelow.1 heq (by simp [hplace])

include hopen in
private theorem loses_delete_file {content : Content}
    (hfind : store.find path = .ok (placeOf store.here path, .file content))
    (hplace : store.node? (placeOf store.here path) = some (.file content)) :
    Loses store (delete path true store).2
      (Takes (walkFrom (startOf store.here path) (before.filter isStep))
        (placeOf store.here path)) := by
  have hdelete : delete path true store =
      (.ok true, store.remove (placeOf store.here path)) := by
    simp [delete, hfind]
  rw [hdelete]
  refine (loses_remove_file htree hplace).congr (takes_iff_of_clear ?_)
  intro passed hpassed hbelow
  by_contra hne
  have hdirectory := htree.directory_around hbelow (Ne.symm hne)
    (by simp [hopen.directories passed hpassed])
  simp [hplace] at hdirectory

variable (hname : IsName name) (hpieces : path.pieces = before ++ [name])
  (hfind : store.find path = .ok (placeOf store.here path, .directory))

omit htree
include hname hpieces hfind

private theorem loses_delete_directory
    (hopen : IsOpen store (startOf store.here path) (before.filter isStep))
    (haccepted : IsAccepted path)
    (hplace : store.node? (placeOf store.here path) = some .directory)
    (hclear : ∀ passed ∈ walkFrom (startOf store.here path)
      (before.filter isStep),
      placeOf store.here path <+: passed → passed = placeOf store.here path) :
    Loses store (delete path true store).2
      (Takes (walkFrom (startOf store.here path) (before.filter isStep))
        (placeOf store.here path)) := by
  have hroute := routeOf_of_name hname hpieces
  have hplaceOf := placeOf_of_name hname hpieces store.here
  have hremove := @removeEmpty_clear store path haccepted (by rwa [hroute])
    (by rwa [hroute]) (by rwa [hroute]) hplace
  have hdelete : delete path true store = (.ok true,
      (store.clear (placeOf store.here path)).remove
        (placeOf store.here path)) := by
    simp [delete, hfind, hremove]
  rw [hdelete]
  exact (loses_clear_remove store (by simp [hplaceOf])).congr
    (takes_iff_of_clear hclear)

private theorem loses_delete_passed
    (hpassed : ¬∀ passed ∈ walkFrom (startOf store.here path)
      (before.filter isStep),
      placeOf store.here path <+: passed → passed = placeOf store.here path) :
    Loses store (delete path true store).2
      (Takes (walkFrom (startOf store.here path) (before.filter isStep))
        (placeOf store.here path)) := by
  have hcleared := loses_clear store (placeOf store.here path)
  have hremove : ∀ removed,
      (store.clear (placeOf store.here path)).removeEmpty path ≠
        .ok removed := by
    intro removed hremoved
    have hopen := isOpen_of_removeEmpty hname hpieces hremoved
    refine hpassed fun passed hwalked hbelow => ?_
    by_contra hne
    have hdirectory := hopen.directories passed hwalked
    rw [hcleared.gone passed ⟨hbelow, Ne.symm hne⟩] at hdirectory
    cases hdirectory
  have hdelete : (delete path true store).2 =
      store.clear (placeOf store.here path) := by
    simp only [delete, hfind, if_true]
    split
    · rename_i hremoved
      exact absurd hremoved (hremove _)
    · rfl
    · rfl
  rw [hdelete]
  refine hcleared.congr fun other =>
    ⟨fun h => ⟨h.1, fun heq => ?_⟩, fun h => ⟨h.1, ?_⟩⟩
  · exact absurd heq.symm h.2
  · rintro rfl
    exact hpassed (h.2 rfl)

end Named

/-- Deleting what a name stands for takes it with everything below. When the way
leads further below it is closed too early, and a directory stays. -/
theorem delete_of_name {before : List String} {name : String} {found : Bool}
    (htree : IsTree store) (hname : IsName name)
    (hpieces : path.pieces = before ++ [name])
    (hopen : IsOpen store (startOf store.here path) (before.filter isStep))
    (hok : (delete path true store).1 = .ok found) :
    Loses store (delete path true store).2
      (Takes (walkFrom (startOf store.here path) (before.filter isStep))
        (placeOf store.here path)) := by
  have haccepted : IsAccepted path := by
    refine isAccepted_of_delete (fun hempty => ?_) hok
    have hnil : before ++ [name] = [""] := by
      rw [← hpieces, Path.pieces, hempty]; rfl
    cases before <;> simp_all [hname.ne_empty]
  have hfind := find_of_name hname hpieces haccepted hopen
  cases hplace : store.node? (placeOf store.here path) with
  | none =>
      rw [hplace] at hfind
      exact loses_delete_missing htree hfind hplace _
  | some node =>
      rw [hplace] at hfind
      cases node with
      | file content => exact loses_delete_file htree hopen hfind hplace
      | directory =>
          by_cases hclear :
              ∀ passed ∈ walkFrom (startOf store.here path)
                (before.filter isStep),
              placeOf store.here path <+: passed →
              passed = placeOf store.here path
          · exact loses_delete_directory hname hpieces hfind hopen haccepted
              hplace hclear
          · exact loses_delete_passed hname hpieces hfind hclear

private theorem delete_of_closed {before : List String} {name : String}
    (hname : IsName name) (hpieces : path.pieces = before ++ [name])
    (hclosed : ¬IsOpen store (startOf store.here path) (before.filter isStep)) :
    (delete path true store).2 = store := by
  unfold delete
  split
  · rfl
  · rfl
  all_goals
    rename_i hfind
    obtain ⟨-, hopen, -⟩ := find_eq_ok_iff.1 hfind
    rw [routeOf_of_name hname hpieces] at hopen
    exact absurd hopen hclosed

/-! ## Paths on one way -/

/-- What deletions take one behind another. The first one that closes the way is
the last one that takes anything. -/
def TakesAlong (walked : List Place) : List Place → Place → Prop
  | [], _ => False
  | target :: rest, other =>
      Takes walked target other ∨
        (∀ passed ∈ walked, ¬target <+: passed) ∧ TakesAlong walked rest other

section Along

variable {walked targets targets' : List Place} {other : Place}

private theorem takesAlong_append :
    TakesAlong walked (targets ++ targets') other ↔
      TakesAlong walked targets other ∨
        (∀ target ∈ targets, ∀ passed ∈ walked, ¬target <+: passed) ∧
          TakesAlong walked targets' other := by
  induction targets with
  | nil => simp [TakesAlong]
  | cons target rest ih =>
      simp only [List.cons_append, TakesAlong, ih, List.forall_mem_cons,
        and_or_left, or_assoc, and_assoc]

private theorem below_of_takesAlong (h : TakesAlong walked targets other) :
    ∃ target ∈ targets, target <+: other := by
  induction targets with
  | nil => exact h.elim
  | cons target rest ih =>
      rcases h with htakes | ⟨-, hrest⟩
      · exact ⟨target, List.mem_cons_self, htakes.1⟩
      · obtain ⟨target', hmem, hbelow⟩ := ih hrest
        exact ⟨target', .tail _ hmem, hbelow⟩

theorem takesAlong_of_clear
    (hclear : ∀ target ∈ targets, ∀ passed ∈ walked, ¬target <+: passed)
    {target : Place} (htarget : target ∈ targets) (hbelow : target <+: other) :
    TakesAlong walked targets other := by
  induction targets with
  | nil => cases htarget
  | cons first rest ih =>
      obtain ⟨hfirst, hrest⟩ := List.forall_mem_cons.1 hclear
      rcases List.mem_cons.1 htarget with rfl | htarget
      · exact .inl
          ⟨hbelow, fun _ passed hpassed h => absurd h (hfirst passed hpassed)⟩
      · exact .inr ⟨hfirst, ih hrest htarget⟩

private theorem exists_takesAlong {target passed : Place}
    (htarget : target ∈ targets) (hpassed : passed ∈ walked)
    (hbelow : target <+: passed) :
    ∃ lost ∈ walked, TakesAlong walked targets lost := by
  induction targets with
  | nil => cases htarget
  | cons first rest ih =>
      by_cases hfirst : ∀ passed ∈ walked, ¬first <+: passed
      · rcases List.mem_cons.1 htarget with rfl | htarget
        · exact absurd hbelow (hfirst passed hpassed)
        · obtain ⟨lost, hlost, htakes⟩ := ih htarget
          exact ⟨lost, hlost, .inr ⟨hfirst, htakes⟩⟩
      · by_cases hdeep : ∀ passed ∈ walked, first <+: passed → passed = first
        · simp only [not_forall, not_not] at hfirst
          obtain ⟨lost, hlost, hbelow'⟩ := hfirst
          exact ⟨lost, hlost, .inl ⟨hbelow', fun _ => hdeep⟩⟩
        · simp only [not_forall] at hdeep
          obtain ⟨lost, hlost, hbelow', hne⟩ := hdeep
          exact ⟨lost, hlost, .inl ⟨hbelow', fun heq => absurd heq hne⟩⟩

private theorem takesAlong_concat {last : Place}
    (hclear : ∀ target ∈ targets, ¬target <+: last) :
    TakesAlong (walked ++ [last]) targets other ↔
    TakesAlong walked targets other := by
  induction targets with
  | nil => rfl
  | cons target rest ih =>
      obtain ⟨htarget, hrest⟩ := List.forall_mem_cons.1 hclear
      simp only [TakesAlong, Takes, ih hrest, List.forall_mem_append,
        List.forall_mem_singleton, htarget, not_false_eq_true, false_implies,
        and_true]

end Along

theorem Loses.isOpen_iff {before : Store} {lost : Place → Prop}
    (h : Loses before after lost) {start : Place} {way : List String}
    (hopen : IsOpen before start way) : IsOpen after start way ↔
    ∀ passed ∈ walkFrom start way, ¬lost passed := by
  constructor
  · intro hopen' passed hpassed hlost
    have hdirectory := hopen'.directories passed hpassed
    rw [h.gone passed hlost] at hdirectory
    cases hdirectory
  · intro hclear
    refine ⟨fun passed hpassed => ?_, hopen.short⟩
    rw [h.kept passed (hclear passed hpassed)]
    exact hopen.directories passed hpassed

/-- What has been done by deletions on a way to some places: nothing if the way
was closed, and if nothing has been refused just what they take along it. -/
structure Deletes (granted : Prop) (start : Place) (way : List String)
    (targets : List Place) (before after : Store) : Prop where
  shrinks : Shrinks before after fun other => ∃ target ∈ targets,
      target <+: other
  idle : ¬IsOpen before start way →
      ∀ place, after.node? place = before.node? place
  loses : granted → IsOpen before start way →
    Loses before after (TakesAlong (walkFrom start way) targets)

namespace Deletes

variable {granted granted' : Prop} {start : Place} {way : List String}
  {targets targets' : List Place} {before between : Store}

theorem refl (store : Store) : Deletes granted start way [] store store :=
  ⟨.refl _ _, fun _ _ => rfl,
    fun _ _ => ⟨rfl, fun _ h => h.elim, fun _ _ => rfl⟩⟩

theorem mono (h : Deletes granted start way targets before after)
    (himp : granted' → granted) :
    Deletes granted' start way targets before after :=
  ⟨h.shrinks, h.idle, fun hgranted => h.loses (himp hgranted)⟩

theorem append (h : Deletes granted start way targets before between)
    (h' : Deletes granted' start way targets' between after) :
    Deletes (granted ∧ granted') start way (targets ++
      targets') before after where
  shrinks := by
    refine (h.shrinks.mono ?_).trans (h'.shrinks.mono ?_)
    all_goals
      rintro other ⟨target, htarget, hbelow⟩
      exact ⟨target, by simp [htarget], hbelow⟩
  idle hclosed place := by
    have hbetween := h.idle hclosed
    rw [h'.idle (fun hopen => hclosed ⟨fun passed hpassed => ?_, hopen.short⟩),
      hbetween]
    rw [← hbetween]
    exact hopen.directories passed hpassed
  loses := by
    rintro ⟨hgranted, hgranted'⟩ hopen
    have hloses := h.loses hgranted hopen
    have hiff := hloses.isOpen_iff hopen
    by_cases hclear : ∀ target ∈ targets, ∀ passed ∈ walkFrom start way,
        ¬target <+: passed
    · have hopen' := hiff.2 fun passed hpassed htakes => by
        obtain ⟨target, htarget, hbelow⟩ := below_of_takesAlong htakes
        exact hclear target htarget passed hpassed hbelow
      refine (hloses.trans (h'.loses hgranted' hopen')).congr fun other => ?_
      rw [takesAlong_append, and_iff_right hclear]
    · -- The way is closed behind the first deletions, so that the others take
      -- nothing.
      have hclosed : ¬IsOpen between start way := by
        intro hopen'
        refine hclear fun target htarget passed hpassed hbelow => ?_
        obtain ⟨lost, hlost, htakes⟩ := exists_takesAlong htarget hpassed hbelow
        exact hiff.1 hopen' lost hlost htakes
      have hidle := h'.idle hclosed
      refine ⟨h'.shrinks.here_eq.trans hloses.here_eq, fun other htakes => ?_,
        fun other hkept => ?_⟩
      · rw [takesAlong_append, or_iff_left fun hrest => hclear hrest.1]
          at htakes
        rw [hidle, hloses.gone other htakes]
      · rw [takesAlong_append, or_iff_left fun hrest => hclear hrest.1] at hkept
        rw [hidle, hloses.kept other hkept]

end Deletes

theorem Deletes.shorten {granted : Prop} {start : Place} {way : List String}
    {step : String} {targets : List Place} {before : Store}
    (h : Deletes granted start (way ++ [step]) targets before after)
    (hclear : ∀ target ∈ targets, ¬target <+: placeFrom start (way ++ [step]))
    (hlast : IsOpen before start (way ++ [step])) :
    Deletes granted start way targets before after where
  shrinks := h.shrinks
  idle hclosed := absurd hlast.left hclosed
  loses hgranted _ := by
    have hwalk : walkFrom start (way ++ [step]) =
        walkFrom start way ++ [placeFrom start (way ++ [step])] := by
      rw [walkFrom_concat, placeFrom_append]
      rfl
    refine (h.loses hgranted hlast).congr fun other => ?_
    rw [hwalk, takesAlong_concat hclear]

theorem deletes_of_name {before : List String} {name : String}
    {result : Except IoError Bool} (htree : IsTree store) (hname : IsName name)
    (hpieces : path.pieces = before ++ [name])
    (hdelete : delete path true store = (result, after)) :
    Deletes (∀ error, result ≠ .error error) (startOf store.here path)
      (before.filter isStep) [placeOf store.here path] store after := by
  obtain rfl : (delete path true store).2 = after := by rw [hdelete]
  refine ⟨(delete_shrinks path store).mono fun other hbelow => ?_,
    fun hclosed place => ?_,
    fun hgranted hopen => ?_⟩
  · exact ⟨_, List.mem_singleton_self _, hbelow⟩
  · rw [delete_of_closed hname hpieces hclosed]
  · obtain ⟨found, rfl⟩ : ∃ found, result = .ok found := by
      cases result with
      | error error => exact absurd rfl (hgranted error)
      | ok found => exact ⟨found, rfl⟩
    refine (delete_of_name htree hname hpieces hopen (by rw [hdelete])).congr
      fun other => ?_
    simp [TakesAlong]

end JobChain.Store
