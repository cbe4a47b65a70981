import JobChain.Dataset
import JobChain.Proofs.Store.Enclosing
import JobChain.Proofs.Store.Sharing

/-!
# Confined paths

A path that is confined has names and no steps back. Taken from a directory it
leads strictly below that directory, by its components as well as in the store.
-/

namespace JobChain

open Store

namespace Path

/-! ## Paths taken from a directory -/

private theorem text_join (base : Path) {path : Path}
    (h : path.isAbsolute = false) :
    (base.join path).text = base.front ++ path.text := by
  unfold join front
  rw [if_neg (by simp [h])]
  split_ifs <;> simp

/-- A path taken from a directory goes on behind its pieces, where a slash at
the end counts for none. -/
theorem pieces_join {base : Path} (hne : base.text ≠ "") :
    ∃ before : List String, before ≠ [] ∧
      (base.pieces = before ∨ base.pieces = before ++ [""]) ∧
      ∀ path : Path, path.isAbsolute = false →
        (base.join path).pieces = before ++ path.pieces := by
  obtain ⟨text, hfront, htext⟩ := exists_front hne
  refine ⟨Path.pieces ⟨text⟩, ?_, ?_, fun path hpath => ?_⟩
  · simp [pieces, Text.splitAt_ne_nil]
  · rcases htext with htext | htext
    · exact .inl (by rw [← htext])
    · exact .inr (by rw [← pieces_slash_end, ← htext])
  · have hjoin : base.join path = ⟨text ++ "/" ++ path.text⟩ := by
      rw [Path.mk.injEq, text_join base hpath, hfront]
    rw [hjoin, pieces_slash]

section Join

variable {base path : Path} (hne : base.text ≠ "")
  (hpath : path.isAbsolute = false)

include hne hpath

theorem isAbsolute_join : (base.join path).isAbsolute = base.isAbsolute := by
  rcases base.front_eq with ⟨-, hempty⟩ | ⟨text, hfront, -, hhead⟩
  · exact absurd hempty hne
  · obtain ⟨c, rest, hchars⟩ :=
      List.exists_cons_of_ne_nil (by simp : (text ++ "/").toList ≠ [])
    rw [isAbsolute, isAbsolute, text_join base hpath, hfront, hhead,
      String.toList_append, hchars]
    rfl

theorem steps_join : (base.join path).steps = base.steps ++ path.steps := by
  obtain ⟨before, -, hbefore, hpieces⟩ := pieces_join hne
  have hsteps : base.steps = before.filter isStep := by
    rcases hbefore with hbefore | hbefore <;> simp [steps, hbefore, isStep]
  rw [hsteps, steps, hpieces path hpath, List.filter_append, steps]

private theorem components_join :
    (base.join path).components = base.components ++
    path.pieces.filterMap component? := by
  obtain ⟨before, hbefore, hbase, hpieces⟩ := pieces_join hne
  have hhead : base.pieces.head? = (before ++ path.pieces).head? := by
    obtain ⟨first, rest, rfl⟩ := List.exists_cons_of_ne_nil hbefore
    rcases hbase with hbase | hbase <;> simp [hbase]
  have hmap : base.pieces.filterMap component? =
      before.filterMap component? := by
    rcases hbase with hbase | hbase <;> simp [hbase, component?]
  rw [components, components, isAbsolute_join hne hpath, hpieces path hpath,
    ← hhead, hmap, List.filterMap_append, List.append_assoc]

end Join

/-! ## Confinement -/

private theorem component?_eq_parent {piece : String} :
    component? piece = some .parent ↔ piece = ".." := by
  unfold component?
  split_ifs with hnone hparent
  · exact iff_of_false (by simp) (by rintro rfl; simp at hnone)
  · simp [hparent]
  · simp [hparent]

private theorem component?_eq_normal {piece name : String} :
    component? piece = some (.normal name) ↔ piece = name ∧ isStep name = true ∧
    name ≠ ".." := by
  unfold component?
  split_ifs with hnone hparent
  · refine iff_of_false (by simp) ?_
    rintro ⟨rfl, hstep, -⟩
    rcases hnone with rfl | rfl <;> simp [isStep] at hstep
  · exact iff_of_false (by simp) fun h => h.2.2 (h.1 ▸ hparent)
  · have hstep : isStep piece = true := by simpa [isStep] using hnone
    simp only [Option.some.injEq, Component.normal.injEq]
    exact ⟨fun heq => heq ▸ ⟨rfl, hstep, hparent⟩, fun h => h.1⟩

private theorem root_mem_components {path : Path} :
    .root ∈ path.components ↔ path.isAbsolute = true := by
  rw [← head?_components]
  refine ⟨fun hmem => ?_, List.mem_of_mem_head?⟩
  rw [components, List.mem_append] at hmem
  rcases hmem with hmem | hmem
  · unfold components
    split_ifs at hmem ⊢ <;> simp_all
  · obtain ⟨piece, -, hpiece⟩ := List.mem_filterMap.1 hmem
    exact absurd rfl (component?_eq_some hpiece).2.2

private theorem mem_components_iff {path : Path} {component : Component}
    (hroot : component ≠ .root) (hcurrent : component ≠ .current) :
    component ∈ path.components ↔ ∃ piece ∈ path.pieces,
    component? piece = some component := by
  rw [components, List.mem_append, List.mem_filterMap, or_iff_right]
  split_ifs <;> simp [hroot, hcurrent]

private theorem parent_mem_components {path : Path} :
    .parent ∈ path.components ↔ ".." ∈ path.steps := by
  rw [mem_components_iff (by simp) (by simp)]
  simp [component?_eq_parent, steps, isStep]

private theorem normal_mem_components {path : Path} {name : String} :
    .normal name ∈ path.components ↔ name ∈ path.steps ∧ name ≠ ".." := by
  rw [mem_components_iff (by simp) (by simp)]
  simp only [component?_eq_normal, steps, List.mem_filter]
  constructor
  · rintro ⟨_, hpiece, rfl, hstep, hparent⟩
    exact ⟨⟨hpiece, hstep⟩, hparent⟩
  · rintro ⟨⟨hpiece, hstep⟩, hparent⟩
    exact ⟨_, hpiece, rfl, hstep, hparent⟩

theorem isConfined_iff {path : Path} :
    path.isConfined = true ↔ path.isAbsolute = false ∧ path.steps ≠ [] ∧
    ".." ∉ path.steps := by
  rw [isConfined, Bool.and_eq_true, List.any_eq_true, List.all_eq_true,
    ← parent_mem_components, ← Bool.not_eq_true, ← root_mem_components]
  constructor
  · rintro ⟨⟨component, hmem, hnormal⟩, hall⟩
    refine ⟨fun hroot => by simpa using hall _ hroot, fun hnil => ?_,
      fun hparent => by simpa using hall _ hparent⟩
    cases component with
    | normal name => simpa [hnil] using normal_mem_components.1 hmem
    | _ => cases hnormal
  · rintro ⟨hroot, hsteps, hparent⟩
    obtain ⟨name, rest, hname⟩ := List.exists_cons_of_ne_nil hsteps
    have hmem : name ∈ path.steps := hname ▸ List.mem_cons_self
    refine ⟨⟨.normal name, normal_mem_components.2 ⟨hmem, ?_⟩, rfl⟩,
      fun component hcomponent => ?_⟩
    · rintro rfl
      exact hparent (parent_mem_components.2 hmem)
    · cases component with
      | root => exact absurd hcomponent hroot
      | parent => exact absurd hcomponent hparent
      | _ => rfl

private theorem filterMap_component? {pieces : List String}
    (h : ".." ∉ pieces.filter isStep) :
    pieces.filterMap component? = (pieces.filter isStep).map .normal := by
  induction pieces with
  | nil => rfl
  | cons piece rest ih =>
      cases hstep : isStep piece with
      | false =>
          rw [List.filter_cons_of_neg (by simp [hstep])] at h ⊢
          rw [List.filterMap_cons_none (component?_eq_none.2 hstep), ih h]
      | true =>
          rw [List.filter_cons_of_pos hstep, List.mem_cons, not_or] at h
          have hcomponent : component? piece = some (.normal piece) := by
            have hpiece : ¬(piece = "" ∨ piece = ".") := by
              simpa [isStep] using hstep
            rw [component?, if_neg hpiece, if_neg (Ne.symm h.1)]
          rw [List.filter_cons_of_pos hstep,
            List.filterMap_cons_some hcomponent, ih h.2, List.map_cons]

/-- Behind a directory a confined path has names as its last components, and
nothing but names. -/
theorem components_join_of_isConfined {base path : Path} (hne : base.text ≠ "")
    (h : path.isConfined = true) :
    (base.join path).components = base.components ++ path.steps.map .normal ∧
    path.steps ≠ [] ∧ ∀ name ∈ path.steps, isStep name = true ∧
    name ≠ ".." := by
  obtain ⟨habsolute, hsteps, hparent⟩ := isConfined_iff.1 h
  refine ⟨?_, hsteps,
    fun name hname => ⟨(List.mem_filter.1 hname).2, fun heq => ?_⟩⟩
  · rw [components_join hne habsolute, filterMap_component? hparent, steps]
  · exact hparent (heq ▸ hname)

theorem not_isConfined {path : Path}
    (h : path.isAbsolute = true ∨ path.text = "" ∨
    (∀ component ∈ path.components, component = .current) ∨
    .parent ∈ path.components) : path.isConfined = false := by
  rw [← Bool.not_eq_true, isConfined_iff]
  rintro ⟨habsolute, hsteps, hparent⟩
  rcases h with h | h | h | h
  · simp [habsolute] at h
  · exact hsteps (steps_of_empty h)
  · obtain ⟨name, rest, hname⟩ := List.exists_cons_of_ne_nil hsteps
    have hmem : name ∈ path.steps := hname ▸ List.mem_cons_self
    have hcomponent :=
      h (.normal name) (normal_mem_components.2
        ⟨hmem, fun heq => hparent (heq ▸ hmem)⟩)
    cases hcomponent
  · exact hparent (parent_mem_components.1 h)

end Path

/-! ## Below a directory -/

def Path.LeadsBelow (here place : Place) (path : Path) : Prop :=
  isBelow place (placeOf here path) = true

section

variable {here place : Place} {path : Path}

theorem Path.LeadsBelow.isBelow_of_extends (h : path.LeadsBelow here place)
    {other : Place}
    (hother : placeOf here path <+: other) : isBelow place other = true := by
  obtain ⟨hbelow, hne⟩ := isBelow_iff.1 h
  refine isBelow_iff.2 ⟨hbelow.trans hother, ?_⟩
  rintro rfl
  exact hne (hbelow.eq_of_length_le hother.length_le)

theorem Path.LeadsBelow.child (h : path.LeadsBelow here place) {name : String}
    (hslash : '/' ∉ name.toList) (hstep : Path.isStep name = true)
    (hparent : name ≠ "..") : (path.child name).LeadsBelow here place := by
  refine h.isBelow_of_extends ?_
  rw [placeOf_child path hslash hstep hparent]
  exact List.prefix_append ..

end

namespace Store

theorem placeFrom_of_no_parent {place : Place} {steps : List String}
    (h : ".." ∉ steps) : placeFrom place steps = place ++ steps := by
  induction steps generalizing place with
  | nil => simp
  | cons step rest ih =>
      obtain ⟨hstep, hrest⟩ := not_or.1 (mt List.mem_cons.2 h)
      rw [placeFrom_cons, ih hrest, stepFrom, if_neg (Ne.symm hstep),
        List.append_assoc, List.singleton_append]

theorem prefix_of_mem_walkFrom {place passed : Place} {steps : List String}
    (h : ".." ∉ steps) (hpassed : passed ∈ walkFrom place steps) :
    place <+: passed ∧ passed <+: placeFrom place steps := by
  induction steps generalizing place with
  | nil =>
      obtain rfl := List.mem_singleton.1 hpassed
      exact ⟨List.prefix_refl _, List.prefix_refl _⟩
  | cons step rest ih =>
      obtain ⟨hstep, hrest⟩ := not_or.1 (mt List.mem_cons.2 h)
      rcases List.mem_cons.1 hpassed with rfl | hpassed
      · rw [placeFrom_of_no_parent h]
        exact ⟨List.prefix_refl _, List.prefix_append ..⟩
      · obtain ⟨hfirst, hlast⟩ := ih hrest hpassed
        rw [stepFrom, if_neg (Ne.symm hstep)] at hfirst
        exact ⟨(List.prefix_append ..).trans hfirst, hlast⟩

section

variable {base path : Path} (hne : base.text ≠ "") (h : path.isConfined = true)

include hne h

theorem leadsBelow_join (here : Place) :
    (base.join path).LeadsBelow here (placeOf here base) := by
  obtain ⟨habsolute, hsteps, hparent⟩ := Path.isConfined_iff.1 h
  have hplace : placeOf here (base.join path) = placeOf here base ++
      path.steps := by
    rw [placeOf, startOf, Path.isAbsolute_join hne habsolute,
      Path.steps_join hne habsolute, placeFrom_append,
      placeFrom_of_no_parent hparent]
    rfl
  rw [Path.LeadsBelow, isBelow_iff, hplace]
  exact ⟨List.prefix_append .., by simpa using hsteps⟩

/-- On its way a confined path passes what the directory passes, and then goes
below it. -/
theorem mem_walkFrom_join {here passed : Place}
    (hpassed : passed ∈ walkFrom (startOf here (base.join path))
      (base.join path).steps) :
    passed ∈ walkFrom (startOf here base) base.steps ∨
      isBelow (placeOf here base) passed = true := by
  obtain ⟨habsolute, -, hparent⟩ := Path.isConfined_iff.1 h
  rw [startOf, Path.isAbsolute_join hne habsolute,
    Path.steps_join hne habsolute, mem_walkFrom_append] at hpassed
  rcases hpassed with hpassed | hpassed
  · exact .inl hpassed
  · have hbegins := (prefix_of_mem_walkFrom hparent hpassed).1
    by_cases heq : placeOf here base = passed
    · exact .inl (heq ▸ placeFrom_mem_walkFrom _ _)
    · exact .inr (isBelow_iff.2 ⟨hbegins, heq⟩)

end

end Store

end JobChain
