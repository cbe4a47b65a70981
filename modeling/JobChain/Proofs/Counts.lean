import JobChain.Proofs.Sums
import Mathlib.Algebra.Order.BigOperators.Group.List
import Mathlib.Algebra.Order.Group.Nat
import Mathlib.Data.List.Dedup

/-!
# Counting by group

An element counts for the group that a field names, with as many paths as it
has. The sums of what is counted are the numbers of paths of all groups, and the
stage that counts never fails.
-/

namespace JobChain

namespace Builtin

open Pair (AreCounts total keys)

/-! ## Groups -/

def groupOf (field : String) (element : Json) : Json :=
  (Element.field? element field).getD .null

/-- The values by which some elements with paths are counted, each of them
once. -/
def groupsOf (field : String) (elements : List Json) : List Json :=
  ((elements.filter Element.hasPaths).map (groupOf field)).dedup

def pathsIn (field : String) (elements : List Json) (group : Json) : Nat :=
  ((elements.filter fun element => groupOf field element =
    group).map Element.pathCount).sum

def groupCounts (field : String) (elements : List Json) : List Pair :=
  (groupsOf field elements).map fun group =>
    ⟨group, .ofNat (pathsIn field elements group)⟩

def counted (field : String) (pairs : List Pair) : List Pair :=
  (pairs.filter fun pair => Element.hasPaths pair.value).map fun pair =>
    ⟨groupOf field pair.value, .ofNat (Element.pathCount pair.value)⟩

variable {field : String} {pairs : List Pair}

/-- Elements whose groups are told apart, and whose paths can be counted. -/
structure AreCountable (field : String) (elements : List Json) : Prop where
  integral : ∀ element ∈ elements, Element.hasPaths element = true →
    (groupOf field element).isIntegral = true
  shallow : ∀ element ∈ elements, Element.hasPaths element = true →
    (groupOf field element).depth ≤ 126
  bounded : ∀ group, pathsIn field elements group < 2 ^ 64

theorem pathsIn_le (field : String) (elements : List Json) (group : Json) :
    pathsIn field elements group ≤ (elements.map Element.pathCount).sum := by
  apply List.Sublist.sum_le_sum
  · exact List.filter_sublist.map _
  · exact fun _ _ => Nat.zero_le _

private theorem pathCount_le_pathsIn {elements : List Json} {element : Json}
    (h : element ∈ elements) :
    Element.pathCount element ≤
      pathsIn field elements (groupOf field element) := by
  apply List.le_sum_of_mem
  apply List.mem_map_of_mem
  simp [h]

private theorem canonical_groupOf {element : Json} (h : element.Canonical) :
    (groupOf field element).Canonical := by
  unfold groupOf Element.field?
  cases hfield : element.at? _ with
  | none => trivial
  | some value => exact Json.canonical_at? h hfield

private theorem total_counted
    (hword : ∀ pair ∈ pairs, Element.pathCount pair.value < 2 ^ 64)
    (key : Json) :
    total key (counted field pairs) =
      pathsIn field (pairs.map Pair.value) key := by
  induction pairs with
  | nil => rfl
  | cons pair rest ih =>
      obtain ⟨hfirst, hrest⟩ := List.forall_mem_cons.1 hword
      have hlater := ih hrest
      simp only [total, counted, pathsIn, List.map_cons, List.filter_cons]
        at hlater ⊢
      by_cases hpaths : Element.hasPaths pair.value = true
      · by_cases hkey : groupOf field pair.value = key
        · simp [hpaths, hkey, hlater, Pair.amount, Json.toNat?_ofNat hfirst]
        · simp [hpaths, hkey, hlater]
      · have hzero : Element.pathCount pair.value = 0 := by
          simpa [Element.hasPaths] using hpaths
        by_cases hkey : groupOf field pair.value = key <;> simp [hpaths, hkey,
            hlater, hzero]

private theorem mem_keys_counted {key : Json} :
    key ∈ keys (counted field pairs) ↔
    key ∈ groupsOf field (pairs.map Pair.value) := by
  simp only [keys, counted, groupsOf, List.mem_dedup, List.map_map,
    List.filter_map, List.mem_map, Function.comp_apply]
  rfl

private theorem AreCountable.pathCount_lt
    (h : AreCountable field (pairs.map Pair.value)) :
    ∀ pair ∈ pairs, Element.pathCount pair.value < 2 ^ 64 := fun _ hpair =>
  Nat.lt_of_le_of_lt (pathCount_le_pathsIn (List.mem_map_of_mem hpair))
    (h.bounded _)

theorem areCounts_counted (hcanonical : ∀ pair ∈ pairs, pair.value.Canonical)
    (h : AreCountable field (pairs.map Pair.value)) :
    AreCounts (counted field pairs) := by
  have hmem : ∀ count ∈ counted field pairs, ∃ pair ∈ pairs,
      Element.hasPaths pair.value = true ∧
      count = ⟨groupOf field pair.value,
        .ofNat (Element.pathCount pair.value)⟩ := by
    intro count hcount
    obtain ⟨pair, hpair, rfl⟩ := List.mem_map.1 hcount
    obtain ⟨hpair, hpaths⟩ := List.mem_filter.1 hpair
    exact ⟨pair, hpair, hpaths, rfl⟩
  refine ⟨fun count hcount => ?_, fun count hcount => ?_, fun key => ?_⟩
  · obtain ⟨pair, hpair, hpaths, rfl⟩ := hmem count hcount
    have helement : pair.value ∈ pairs.map Pair.value :=
      List.mem_map_of_mem hpair
    refine ⟨canonical_groupOf (hcanonical pair hpair),
      h.integral _ helement hpaths, ?_⟩
    exact Nat.lt_succ_of_le (h.shallow _ helement hpaths)
  · obtain ⟨pair, hpair, hpaths, rfl⟩ := hmem count hcount
    rw [Json.toNat?_ofNat (h.pathCount_lt pair hpair)]
    rfl
  · rw [total_counted h.pathCount_lt]
    exact h.bounded key

/-- The sums of what is counted are the numbers of paths of all groups. -/
theorem sums_counted_perm {order : KeyOrder} (horder : order ≠ .numeric)
    (hcanonical : ∀ pair ∈ pairs, pair.value.Canonical)
    (h : AreCountable field (pairs.map Pair.value)) :
    (Group.sums order (counted field pairs)).Perm
      (groupCounts field (pairs.map Pair.value)) := by
  have hcounts := areCounts_counted hcanonical h
  have hnodup : (groupCounts field (pairs.map Pair.value)).Nodup :=
    (List.nodup_dedup _).map fun x y heq => (Pair.mk.inj heq).1
  refine (List.perm_ext_iff_of_nodup (Group.nodup_sums horder hcounts) hnodup).2
    fun pair => ?_
  rw [Group.mem_sums_iff horder hcounts, mem_keys_counted,
    total_counted h.pathCount_lt, groupCounts, List.mem_map]
  constructor
  · rintro ⟨hgroup, hvalue⟩
    exact ⟨pair.key, hgroup, by rw [← hvalue]⟩
  · rintro ⟨group, hgroup, rfl⟩
    simp only [hgroup, and_self]

/-! ## The stage that counts -/

def countActions (field : String) (pair : Pair) : List Action :=
  (if Element.hasPaths pair.value then
    [.write ⟨groupOf field pair.value, .ofNat (Element.pathCount pair.value)⟩]
      else []) ++
    [.writeNamed graphOutput pair]

def countAll (field : String) (pairs : List Pair) : List Action :=
  pairs.flatMap fun pair => countActions field pair ++ [.progress]

private theorem countAll_cons (field : String) (pair : Pair)
    (rest : List Pair) :
    countAll field (pair :: rest) = countActions field pair ++ .progress ::
    countAll field rest := by
  simp [countAll]

def counter (field : String) (options : Options) : FusedStage :=
  ⟨groupCount, field, options⟩

private theorem onMap_counter (field : String) (options : Options)
    (pair : Pair) : (counter field options).onMap pair =
      { actions := countActions field pair, failure? := none,
        stage := counter field options } := by
  simp only [FusedStage.onMap, FusedStage.replyOf, counter, groupCount,
    countActions, groupOf, Element.hasPaths, decide_eq_true_eq]

private theorem replies_counter (field : String) (options : Options)
    (pairs : List Pair) :
    (counter field options).replies pairs =
      pairs.map (counter field options).onMap ∧
      (counter field options).after pairs = counter field options := by
  induction pairs with
  | nil => exact ⟨rfl, rfl⟩
  | cons pair rest ih =>
      rw [FusedStage.replies, FusedStage.after, onMap_counter]
      obtain ⟨hreplies, hafter⟩ := ih
      exact ⟨by rw [hreplies, List.map_cons, onMap_counter], hafter⟩

section

variable {options : Options}
  (hfield : (options.view 0).get? groupOption = some field)

include hfield

private theorem ready_groupCount :
    (FusedRun.ofFunctions [groupCount] options).ready =
      [counter field (options.view 0)] := by
  change [FusedStage.mk groupCount
    (((options.view 0).get? groupOption).getD defaultGroup) (options.view 0)] =
    _
  rw [hfield]
  rfl

theorem asked_groupCount (pairs : List Pair) :
    (FusedRun.ofFunctions [groupCount] options).asked pairs =
      countAll field pairs := by
  have hfeed : ∀ pairs, FusedRun.feed [counter field (options.view 0)] pairs =
      ([counter field (options.view 0)], countAll field pairs) := by
    intro pairs
    induction pairs with
    | nil => rfl
    | cons pair rest ih =>
        have hpass : FusedRun.pass [counter field (options.view 0)] pair =
            ([counter field (options.view 0)], countActions field pair) := by
          simp only [FusedRun.pass, onMap_counter, List.isEmpty_nil, if_true]
        rw [FusedRun.feed, hpass, ih, countAll_cons]
  rw [FusedRun.asked, ready_groupCount hfield, hfeed]
  change [] ++ (_ ++ []) = _
  rw [List.nil_append, List.append_nil]

private theorem succeeds_groupCount (pairs : List Pair) :
    ∀ solo ∈ FusedRun.oneByOne (FusedRun.ofFunctions [groupCount] options)
      pairs, solo.Succeeds := by
  intro solo hsolo reply hreply
  obtain rfl := List.mem_singleton.1 hsolo
  have hready := List.singleton_inj.1 (ready_groupCount hfield)
  change (FusedStage.onSetup ⟨groupCount, "", options.view 0⟩).stage = _
      at hready
  change reply ∈
      (FusedStage.solo ⟨groupCount, "", options.view 0⟩ pairs).replies at hreply
  obtain ⟨hreplies, hafter⟩ := replies_counter field (options.view 0) pairs
  simp only [SoloRun.replies, FusedStage.solo, hready, hreplies, hafter,
    List.mem_cons, List.mem_append, List.mem_map, List.not_mem_nil, or_false]
      at hreply
  rcases hreply with rfl | ⟨pair, -, rfl⟩ | rfl
  · rfl
  · rw [onMap_counter]
  · rfl

theorem runAll_groupCount (pairs : List Pair) :
    (FusedRun.ofFunctions [groupCount] options).runAll pairs {} =
      .ok (({} : Task).performAll (countAll field pairs)) := by
  have hne : FusedRun.ofFunctions [groupCount] options ≠ [] := by
    simp [FusedRun.ofFunctions]
  have hlast :
    (FusedRun.oneByOne (FusedRun.ofFunctions [groupCount] options)
      pairs).dropLast =
    [] := rfl
  obtain ⟨actions, hruns, -⟩ :=
    FusedRun.exists_runAll hne (succeeds_groupCount hfield pairs)
      (by simp [hlast])
  obtain ⟨prepared, fed, tired, hsetup, hmapAll, hcleanup⟩ := hruns ({} : Task)
  have hrun : (FusedRun.ofFunctions [groupCount] options).runAll pairs {} =
      .ok (({} : Task).performAll actions) := by
    simp only [FusedRun.runAll, hsetup, hmapAll, hcleanup,
      Context.performAll_task]
  rw [hrun, ← asked_groupCount hfield, ← FusedRun.runAll_eq_ok hrun]

end

@[simp] theorem written_countAll (field : String) (pairs : List Pair) :
    written (countAll field pairs) = counted field pairs := by
  induction pairs with
  | nil => rfl
  | cons pair rest ih =>
      rw [countAll_cons, written_append, written_cons, ih, counted, counted,
        List.filter_cons]
      by_cases hpaths : Element.hasPaths pair.value = true <;>
        simp [countActions, hpaths, Action.written?]

theorem namedPairs_countAll (field output : String) (pairs : List Pair) :
    namedPairs output (countAll field pairs) =
      if graphOutput = output then pairs else [] := by
  induction pairs with
  | nil => simp [countAll]
  | cons pair rest ih =>
      rw [countAll_cons, namedPairs_append, namedPairs_cons, ih]
      by_cases hpaths : Element.hasPaths pair.value = true <;>
        by_cases houtput : graphOutput = output <;>
          simp [countActions, hpaths, houtput, Action.namedPair?]

end Builtin

end JobChain
