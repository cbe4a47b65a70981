import JobChain.Proofs.Store.Steps
import Mathlib.Data.List.Induction
import Mathlib.Tactic.SplitIfs

/-!
# Enclosing directories

The directories around a path are made of its first components. So they are
entered where the path is, and their steps are the first ones of the path.
-/

namespace JobChain.Path

/-! ## Components and steps -/

def Component.text : Component → String
  | .root => ""
  | .current => "."
  | .parent => ".."
  | .normal name => name

theorem pieces_intercalate {texts : List String} (hne : texts ≠ [])
    (hslash : ∀ text ∈ texts, '/' ∉ text.toList) :
    Path.pieces ⟨String.intercalate "/" texts⟩ = texts := by
  induction texts with
  | nil => exact absurd rfl hne
  | cons text rest ih =>
      obtain ⟨htext, hrest⟩ := List.forall_mem_cons.1 hslash
      cases rest with
      | nil => simpa using pieces_of_no_slash htext
      | cons next others =>
          rw [String.intercalate_cons_cons, pieces_slash,
            pieces_of_no_slash htext, ih (by simp) hrest, List.singleton_append]

theorem component?_eq_some {piece : String} {component : Component}
    (h : component? piece = some component) :
    component.text = piece ∧ isStep piece = true ∧ component ≠ .root := by
  unfold component? at h
  split_ifs at h with hnone hparent
  · cases h
    exact ⟨hparent.symm, by simp [isStep, hparent], by simp⟩
  · cases h
    exact ⟨rfl, by simpa [isStep] using hnone, by simp⟩

theorem component?_eq_none {piece : String} :
    component? piece = none ↔ isStep piece = false := by
  unfold component?
  split_ifs with hnone hparent
  · rcases hnone with rfl | rfl <;> simp [isStep]
  · simp [isStep, hparent]
  · simpa [isStep] using hnone

private theorem map_text_filterMap (pieces : List String) :
    (pieces.filterMap component?).map Component.text =
      pieces.filter isStep := by
  induction pieces with
  | nil => rfl
  | cons piece rest ih =>
      cases hcomponent : component? piece with
      | none => simp [hcomponent, component?_eq_none.1 hcomponent, ih]
      | some component =>
          obtain ⟨htext, hstep, -⟩ := component?_eq_some hcomponent
          simp [hcomponent, hstep, ih, htext]

/-- The components of a path tell its steps, and at the front where it
starts. -/
theorem steps_eq_components (path : Path) :
    path.steps = (path.components.map Component.text).filter isStep := by
  have hsteps : (path.pieces.filter isStep).filter isStep =
      path.pieces.filter isStep := by simp
  rw [components, List.map_append, List.filter_append, map_text_filterMap,
    hsteps, steps]
  split_ifs <;> simp [Component.text, isStep]

theorem head?_components (path : Path) :
    path.components.head? = some .root ↔ path.isAbsolute = true := by
  unfold components
  cases habsolute : path.isAbsolute with
  | true => simp
  | false =>
      simp only [Bool.false_eq_true, if_false, iff_false]
      split_ifs
      · simp
      · intro hhead
        obtain ⟨piece, -, hpiece⟩ :=
          List.mem_filterMap.1 (List.mem_of_mem_head? hhead)
        exact (component?_eq_some hpiece).2.2 rfl

private theorem of_mem_components {path : Path} {component : Component}
    (h : component ∈ path.components) : '/' ∉ component.text.toList ∧
    (component ≠ .root → component.text ≠ "") := by
  rw [components, List.mem_append] at h
  rcases h with h | h
  · split_ifs at h <;> simp_all [Component.text]
  · obtain ⟨piece, hpiece, hcomponent⟩ := List.mem_filterMap.1 h
    obtain ⟨htext, hstep, -⟩ := component?_eq_some hcomponent
    rw [htext]
    exact ⟨no_slash_of_mem_pieces hpiece,
      fun _ hempty => by simp [isStep, hempty] at hstep⟩

theorem ofComponents_eq {components : List Component}
    (h : components ≠ [.root]) :
    ofComponents components =
      ⟨String.intercalate "/" (components.map Component.text)⟩ := by
  unfold ofComponents
  split
  · exact absurd rfl h
  · congr 2

private theorem isAbsolute_ofComponents {first : Component}
    {rest : List Component} (hne : first :: rest ≠ [.root])
    (hslash : '/' ∉ first.text.toList)
    (htext : first ≠ .root → first.text ≠ "") :
    (ofComponents (first :: rest)).isAbsolute = true ↔ first = .root := by
  rw [ofComponents_eq hne, List.map_cons]
  by_cases hroot : first = .root
  · subst hroot
    obtain ⟨next, others, rfl⟩ := List.exists_cons_of_ne_nil
      fun hnil : rest = [] => hne (by rw [hnil])
    rw [List.map_cons, String.intercalate_cons_cons]
    simp [isAbsolute, Component.text]
  · obtain ⟨tail, htail⟩ : ∃ tail,
        String.intercalate "/" (first.text :: rest.map Component.text) =
          first.text ++ tail := by
      cases rest with
      | nil => exact ⟨"", by simp⟩
      | cons next others =>
          exact ⟨_, by
            rw [List.map_cons, String.intercalate_cons_cons,
              String.append_assoc]⟩
    obtain ⟨c, chars, hchars⟩ := List.exists_cons_of_ne_nil
      (by simpa using htext hroot :
      first.text.toList ≠ [])
    have hc : c ≠ '/' := fun heq => hslash (by simp [hchars, heq])
    simp [isAbsolute, htail, hchars, hc, hroot]

theorem pieces_ofComponents {path : Path} {front : List Component}
    (h : front <+: path.components) (hne : front ≠ [])
    (hroot : front ≠ [.root]) :
    (ofComponents front).pieces = front.map Component.text := by
  rw [ofComponents_eq hroot]
  refine pieces_intercalate
    (by simpa using hne) (List.forall_mem_map.2 fun component hcomponent => ?_)
  exact (of_mem_components (h.subset hcomponent)).1

theorem steps_ofComponents {path : Path} {front : List Component}
    (h : front <+: path.components) :
    (ofComponents front).steps = (front.map Component.text).filter isStep := by
  by_cases hne : front = []
  · subst hne
    decide
  · by_cases hroot : front = [.root]
    · subst hroot
      decide
    · rw [steps, pieces_ofComponents h hne hroot]

/-- The first components of a path stand for its first steps, unless there are
none. -/
theorem prefix_of_ofComponents {path : Path} {front : List Component}
    (h : front <+: path.components) :
    (ofComponents front).text = "" ∨
    (ofComponents front).isAbsolute = path.isAbsolute ∧
      (ofComponents front).steps <+: path.steps := by
  cases front with
  | nil => exact .inl (by decide)
  | cons first rest =>
      have hhead : path.components.head? = some first := by
        obtain ⟨others, hothers⟩ := h
        simp [← hothers]
      refine .inr ⟨?_, ?_⟩
      · by_cases hroot : first :: rest = [.root]
        · rw [hroot, (head?_components path).1 (by simp_all)]
          decide
        · obtain ⟨hslash, htext⟩ :=
            of_mem_components (h.subset List.mem_cons_self)
          rw [Bool.eq_iff_iff, isAbsolute_ofComponents hroot hslash htext,
            ← head?_components, hhead, Option.some_inj]
      · rw [steps_ofComponents h, steps_eq_components path]
        exact (h.map _).filter _

/-! ## Directories around a path -/

theorem directoriesOf_concat (front : List Component) (last : Component) :
    directoriesOf (front ++ [last]).reverse = [] ∨
      directoriesOf (front ++ [last]).reverse = ofComponents front ::
      directoriesOf front.reverse := by
  rw [List.reverse_concat, directoriesOf.eq_def]
  split
  · exact .inl rfl
  · exact .inl rfl
  · rename_i heq
    obtain ⟨rfl, rfl⟩ := List.cons.inj heq
    exact .inr (by rw [List.reverse_reverse])

private theorem mem_directoriesOf {components : List Component} {outer : Path}
    (h : outer ∈ directoriesOf components.reverse) :
    ∃ front, front <+: components ∧ outer = ofComponents front := by
  induction components using List.reverseRecOn with
  | nil => simp [directoriesOf] at h
  | append_singleton front last ih =>
      rcases directoriesOf_concat front last with hnone | hmore
      · rw [hnone] at h
        cases h
      · rw [hmore] at h
        rcases List.mem_cons.1 h with rfl | h
        · exact ⟨front, List.prefix_append .., rfl⟩
        · obtain ⟨before, hbefore, rfl⟩ := ih h
          exact ⟨before, hbefore.trans (List.prefix_append ..), rfl⟩

theorem of_mem_directories {path outer : Path} (h : outer ∈ path.directories) :
    outer.text = "" ∨ outer.isAbsolute = path.isAbsolute ∧
    outer.steps <+: path.steps := by
  obtain ⟨front, hfront, rfl⟩ := mem_directoriesOf h
  exact prefix_of_ofComponents hfront

theorem of_directory? {path outer : Path} (h : path.directory? = some outer) :
    outer.text = "" ∨ outer.isAbsolute = path.isAbsolute ∧
    outer.steps <+: path.steps := by
  unfold directory? at h
  split at h
  · cases h
  · cases h
  · rename_i last front _ heq
    obtain rfl := Option.some.inj h
    refine prefix_of_ofComponents ⟨[last], ?_⟩
    rw [← List.reverse_inj]
    simp [heq]

end JobChain.Path
