import JobChain.Counters
import Mathlib.Algebra.BigOperators.Group.List.Basic
import Mathlib.Algebra.GroupWithZero.Nat
import Mathlib.Data.String.Basic

/-!
# What counters come to

Counters keep one sum for each group and name that has been counted, with zero
or more, and list the sums in order. Increments that are made apart and merged
behind one another come to the same as all of them made one by one, in any
order. None of the additions on the way takes more than the last sums do.
-/

namespace JobChain

abbrev Increment := String × String × Nat

def amountIn (group name : String) (increments : List Increment) : Nat :=
  (increments.map fun (g, n, amount) =>
    if g = group ∧ n = name then amount else 0).sum

@[simp] theorem amountIn_nil (group name : String) :
    amountIn group name [] = 0 := rfl

@[simp] theorem amountIn_cons (group name g n : String) (amount : Nat)
    (rest : List Increment) : amountIn group name ((g, n, amount) :: rest) =
      (if g = group ∧ n = name then amount else 0) + amountIn group name rest :=
  rfl

namespace Counters

/-! ## One sum for each group and name -/

def sum? (counters : Counters) (group name : String) : Option Nat :=
  (counters.get? group).bind fun names => names.get? name

private theorem get_eq_getD (counters : Counters) (group name : String) :
    counters.get group name = (counters.sum? group name).getD 0 := rfl

private theorem sum?_eq_some_iff {counters : Counters} {group name : String}
    {value : Nat} : counters.sum? group name = some value ↔
      (counters.sum? group name).isSome ∧ value = counters.get group name := by
  rw [get_eq_getD]
  cases counters.sum? group name <;> simp [eq_comm]

private theorem sum?_increment (counters : Counters) (group name g n : String)
    (amount : Nat) : (counters.increment group name amount).sum? g n =
      if g = group ∧ n = name then some (counters.get group name + amount)
      else counters.sum? g n := by
  simp only [sum?, increment, SortedMap.update, SortedMap.get?_insert]
  by_cases hgroup : g = group
  · subst hgroup
    by_cases hname : n = name <;>
      cases hnames : counters.get? g <;> simp [SortedMap.get?_insert, hname,
        Counters.get, hnames]
  · simp [hgroup]

theorem get_increment (counters : Counters) (group name g n : String)
    (amount : Nat) : (counters.increment group name amount).get g n =
      counters.get g n + if group = g ∧ name = n then amount else 0 := by
  rw [get_eq_getD, sum?_increment]
  by_cases hself : g = group ∧ n = name
  · obtain ⟨rfl, rfl⟩ := hself
    simp
  · rw [if_neg hself, if_neg fun heq => hself ⟨heq.1.symm, heq.2.symm⟩]
    rfl

private theorem ne_of_elsewhere {group name g n : String}
    (h : ¬(g = group ∧ n = name))
    {a b : Nat} : (g, n, a) ≠ (group, name, b) := by
  rintro ⟨⟩
  exact h ⟨rfl, rfl⟩

theorem mem_sums_iff {counters : Counters} {group name : String} {value : Nat} :
    (group, name, value) ∈ counters.sums ↔
    counters.sum? group name = some value := by
  simp [sums, sum?, Option.bind_eq_some_iff, SortedMap.get?_eq_some_iff]

/-- The order of groups, and of names in a group. -/
def Precedes (first second : Increment) : Prop :=
  first.1 < second.1 ∨ first.1 = second.1 ∧ first.2.1 < second.2.1

theorem pairwise_sums (counters : Counters) :
    counters.sums.Pairwise Precedes := by
  refine List.pairwise_flatMap.2 ⟨fun entry _ => ?_, ?_⟩
  · refine List.pairwise_map.2 (entry.2.sorted.imp fun hlt => ?_)
    exact .inr ⟨rfl, compare_lt_iff_lt.1 hlt⟩
  · refine counters.sorted.imp fun hlt first hfirst second hsecond => ?_
    obtain ⟨_, -, rfl⟩ := List.mem_map.1 hfirst
    obtain ⟨_, -, rfl⟩ := List.mem_map.1 hsecond
    exact .inl (compare_lt_iff_lt.1 hlt)

theorem nodup_sums (counters : Counters) : counters.sums.Nodup := by
  refine (pairwise_sums counters).imp fun hbefore heq => ?_
  subst heq
  rcases hbefore with hlt | ⟨-, hlt⟩
  · exact lt_irrefl _ hlt
  · exact lt_irrefl _ hlt

/-! ## Increments one by one -/

theorem increment_increment (counters : Counters) (group name : String)
    (a b : Nat) : (counters.increment group name a).increment group name b =
      counters.increment group name (a + b) := by
  refine SortedMap.ext_get? fun g => ?_
  simp only [increment, SortedMap.update, SortedMap.get?_insert]
  by_cases hgroup : g = group
  · simp only [if_pos hgroup, if_true, Option.getD_some, Option.some.injEq]
    refine SortedMap.ext_get? fun n => ?_
    by_cases hname : n = name <;> simp [SortedMap.get?_insert, hname,
        Nat.add_assoc]
  · simp only [if_neg hgroup]

private theorem increment_comm (counters : Counters)
    (group name group' name' : String) (a b : Nat) :
    (counters.increment group name a).increment group' name' b =
      (counters.increment group' name' b).increment group name a := by
  by_cases hgroup : group = group'
  · subst hgroup
    by_cases hname : name = name'
    · subst hname
      rw [increment_increment, increment_increment, Nat.add_comm]
    · refine SortedMap.ext_get? fun g => ?_
      simp only [increment, SortedMap.update, SortedMap.get?_insert]
      by_cases hg : g = group
      · simp only [if_pos hg, if_true, Option.getD_some, Option.some.injEq]
        refine SortedMap.ext_get? fun n => ?_
        simp only [SortedMap.get?_insert, if_neg hname, if_neg (Ne.symm hname)]
        by_cases hn : n = name
        · simp [hn, hname]
        · simp [hn]
      · simp only [if_neg hg]
  · refine SortedMap.ext_get? fun g => ?_
    simp only [increment, SortedMap.update, SortedMap.get?_insert,
      if_neg hgroup, if_neg (Ne.symm hgroup)]
    by_cases hg : g = group
    · simp [hg, hgroup]
    · simp [hg]

def addAll (counters : Counters) (increments : List Increment) : Counters :=
  increments.foldl
    (fun total (group, name, amount) => total.increment group name amount)
    counters

def ofIncrements (increments : List Increment) : Counters :=
  addAll .empty increments

@[simp] theorem addAll_nil (counters : Counters) :
    counters.addAll [] = counters := rfl

@[simp] theorem addAll_cons (counters : Counters) (group name : String)
    (amount : Nat) (rest : List Increment) :
    counters.addAll ((group, name, amount) :: rest) =
      (counters.increment group name amount).addAll rest := rfl

theorem addAll_append (counters : Counters) (first second : List Increment) :
    counters.addAll (first ++ second) = (counters.addAll first).addAll second :=
  List.foldl_append

theorem addAll_perm (counters : Counters) {increments others : List Increment}
    (h : increments.Perm others) :
    counters.addAll increments = counters.addAll others :=
  h.foldl_eq' (fun _ _ _ _ total => increment_comm total ..) counters

private theorem addAll_increment (counters : Counters) (group name : String)
    (amount : Nat) (increments : List Increment) :
    (counters.increment group name amount).addAll increments =
      (counters.addAll increments).increment group name amount := by
  rw [← addAll_cons, addAll_perm counters (List.perm_append_singleton _ _).symm,
    addAll_append]
  rfl

theorem get_addAll (counters : Counters) (increments : List Increment)
    (group name : String) : (counters.addAll increments).get group name =
      counters.get group name + amountIn group name increments := by
  induction increments generalizing counters with
  | nil => rfl
  | cons increment rest ih =>
      obtain ⟨g, n, amount⟩ := increment
      rw [addAll_cons, ih, get_increment, amountIn_cons, Nat.add_assoc]

@[simp] theorem get_ofIncrements (increments : List Increment)
    (group name : String) :
    (ofIncrements increments).get group name = amountIn group name increments :=
  (get_addAll .empty increments group name).trans (Nat.zero_add _)

private theorem isSome_sum?_addAll (counters : Counters)
    (increments : List Increment) (group name : String) :
    ((counters.addAll increments).sum? group name).isSome ↔
      (counters.sum? group name).isSome ∨ ∃ amount,
      (group, name, amount) ∈ increments := by
  induction increments generalizing counters with
  | nil => simp
  | cons increment rest ih =>
      obtain ⟨g, n, amount⟩ := increment
      rw [addAll_cons, ih, sum?_increment]
      by_cases hself : group = g ∧ name = n
      · obtain ⟨rfl, rfl⟩ := hself
        simp
      · have hrest : ∀ value, (group, name, value) ∈ (g, n, amount) :: rest ↔
            (group, name, value) ∈ rest := fun value =>
          List.mem_cons.trans (or_iff_right (ne_of_elsewhere hself))
        simp only [if_neg hself, hrest]

/-- One sum for each group and name of some increments, listed in order. -/
structure AddsUp (counters : Counters)
    (increments : List Increment) : Prop where
  get_eq : ∀ group name,
      counters.get group name = amountIn group name increments
  ordered : counters.sums.Pairwise Precedes
  mem_iff : ∀ group name value, (group, name, value) ∈ counters.sums ↔
    (∃ amount, (group, name, amount) ∈ increments) ∧
    value = amountIn group name increments

theorem addsUp_ofIncrements (increments : List Increment) :
    (ofIncrements increments).AddsUp increments where
  get_eq := get_ofIncrements increments
  ordered := pairwise_sums _
  mem_iff group name value := by
    have hnone : (sum? .empty group name).isSome ↔ False := by simp [sum?]
    rw [mem_sums_iff, sum?_eq_some_iff, get_ofIncrements, ofIncrements,
      isSome_sum?_addAll, hnone, false_or]

/-! ## Merging -/

private theorem merge_eq_addAll (counters other : Counters) :
    counters.merge other = counters.addAll other.sums := rfl

@[simp] theorem merge_empty (counters : Counters) :
    counters.merge .empty = counters := rfl

private theorem sums_increment_of_none {counters : Counters}
    {group name : String} (h : counters.sum? group name = none) (amount : Nat) :
    (counters.increment group name amount).sums.Perm ((group, name, amount) ::
      counters.sums) := by
  have hnew : (group, name, amount) ∉ counters.sums := by simp [mem_sums_iff, h]
  refine (List.perm_ext_iff_of_nodup (nodup_sums _) ?_).2
    fun (g, n, value) => ?_
  · exact List.nodup_cons.2 ⟨hnew, nodup_sums counters⟩
  · rw [List.mem_cons, mem_sums_iff, mem_sums_iff, sum?_increment]
    by_cases hself : g = group ∧ n = name
    · obtain ⟨rfl, rfl⟩ := hself
      simp [get_eq_getD, h, eq_comm]
    · rw [if_neg hself, or_iff_right (ne_of_elsewhere hself)]

private theorem sums_increment_of_some {counters : Counters}
    {group name : String} {before : Nat}
    (h : counters.sum? group name = some before) (amount : Nat) :
    (counters.increment group name amount).sums.Perm
      ((group, name, before + amount) :: counters.sums.erase (group, name,
        before)) := by
  have hold := (nodup_sums counters).erase (group, name, before)
  refine (List.perm_ext_iff_of_nodup (nodup_sums _) ?_).2
    fun (g, n, value) => ?_
  · refine List.nodup_cons.2 ⟨fun hmem => ?_, hold⟩
    obtain ⟨hne, hmem⟩ := (nodup_sums counters).mem_erase_iff.1 hmem
    have hsame : before = before + amount :=
      Option.some.inj (h.symm.trans (mem_sums_iff.1 hmem))
    exact hne (by rw [← hsame])
  · rw [List.mem_cons, mem_sums_iff, (nodup_sums counters).mem_erase_iff,
      mem_sums_iff, sum?_increment]
    by_cases hself : g = group ∧ n = name
    · obtain ⟨rfl, rfl⟩ := hself
      simp [get_eq_getD, h, eq_comm]
    · rw [if_neg hself, or_iff_right (ne_of_elsewhere hself),
        and_iff_right (ne_of_elsewhere hself)]

private theorem merge_increment (counters other : Counters)
    (group name : String) (amount : Nat) :
    counters.merge (other.increment group name amount) =
      (counters.merge other).increment group name amount := by
  simp only [merge_eq_addAll]
  cases hentry : other.sum? group name with
  | none =>
      rw [addAll_perm counters (sums_increment_of_none hentry amount),
        addAll_cons, addAll_increment]
  | some before =>
      have hlisted := List.perm_cons_erase (mem_sums_iff.2 hentry)
      rw [addAll_perm counters (sums_increment_of_some hentry amount),
        addAll_perm counters hlisted, addAll_cons, addAll_cons,
        addAll_increment, addAll_increment, increment_increment]

private theorem merge_addAll (counters other : Counters)
    (increments : List Increment) :
    counters.merge (other.addAll increments) =
      (counters.merge other).addAll increments := by
  induction increments generalizing other with
  | nil => rfl
  | cons increment rest ih =>
      obtain ⟨group, name, amount⟩ := increment
      rw [addAll_cons, ih, merge_increment, addAll_cons]

theorem merge_ofIncrements (counters : Counters) (increments : List Increment) :
    counters.merge (ofIncrements increments) = counters.addAll increments := by
  rw [ofIncrements, merge_addAll, merge_empty]

def mergeAll (parts : List Counters) : Counters := parts.foldl merge .empty

private theorem foldl_merge_ofIncrements (counters : Counters)
    (parts : List (List Increment)) :
    (parts.map ofIncrements).foldl merge counters =
      counters.addAll parts.flatten := by
  induction parts generalizing counters with
  | nil => rfl
  | cons part rest ih =>
      rw [List.map_cons, List.foldl_cons, ih, merge_ofIncrements,
        List.flatten_cons, addAll_append]

theorem mergeAll_ofIncrements (parts : List (List Increment)) :
    mergeAll (parts.map ofIncrements) = ofIncrements parts.flatten :=
  foldl_merge_ofIncrements .empty parts

/-! ## Sums in 64 bits -/

/-- No sum takes more than 64 bits. -/
def Fits (counters : Counters) : Prop :=
  ∀ group name, counters.get group name < 2 ^ 64

def addWord? (counters : Counters) : Increment → Option Counters
  | (group, name, amount) =>
      if counters.get group name + amount < 2 ^ 64 then
        some (counters.increment group name amount)
      else none

def addWords? (counters : Counters)
    (increments : List Increment) : Option Counters :=
  increments.foldlM addWord? counters

/-- Merges what parts come to one behind another, as long as all sums fit in 64
bits. -/
def mergeWords? {α : Type} (own? : α → Option Counters) (counters : Counters)
    (parts : List α) : Option Counters :=
  parts.foldlM
    (fun total part => do total.addWords? (← own? part).sums) counters

private theorem Fits.of_addAll {counters : Counters}
    {increments : List Increment} (h : (counters.addAll increments).Fits) :
    counters.Fits ∧ (ofIncrements increments).Fits := by
  have hsum : ∀ group name, counters.get group name +
      amountIn group name increments < 2 ^ 64 :=
    fun group name => get_addAll counters increments group name ▸ h group name
  refine ⟨fun group name => ?_, fun group name => ?_⟩
  · exact Nat.lt_of_le_of_lt (Nat.le_add_right ..) (hsum group name)
  · rw [get_ofIncrements]
    exact Nat.lt_of_le_of_lt (Nat.le_add_left ..) (hsum group name)

private theorem addWords?_eq_some {counters : Counters}
    {increments : List Increment} (h : (counters.addAll increments).Fits) :
    counters.addWords? increments = some (counters.addAll increments) := by
  induction increments generalizing counters with
  | nil => rfl
  | cons increment rest ih =>
      obtain ⟨group, name, amount⟩ := increment
      rw [addAll_cons] at h ⊢
      have hfits := h.of_addAll.1 group name
      rw [get_increment, if_pos ⟨rfl, rfl⟩] at hfits
      rw [addWords?, List.foldlM_cons, addWord?, if_pos hfits]
      exact ih h

private theorem mergeWords?_eq_some {α : Type} {own? : α → Option Counters}
    {listed : α → List Increment}
    (hown : ∀ part, (ofIncrements (listed part)).Fits →
      own? part = some (ofIncrements (listed part)))
    {counters : Counters} {parts : List α}
    (h : (counters.addAll (parts.flatMap listed)).Fits) :
    mergeWords? own? counters parts =
      some (counters.addAll (parts.flatMap listed)) := by
  induction parts generalizing counters with
  | nil => rfl
  | cons part rest ih =>
      rw [List.flatMap_cons, addAll_append] at h ⊢
      obtain ⟨hmerged, -⟩ := h.of_addAll
      obtain ⟨-, hpart⟩ := hmerged.of_addAll
      rw [← merge_ofIncrements, merge_eq_addAll] at hmerged
      rw [mergeWords?, List.foldlM_cons, hown part hpart]
      change (counters.addWords? (ofIncrements (listed part)).sums).bind _ = _
      rw [addWords?_eq_some hmerged, ← merge_eq_addAll, merge_ofIncrements]
      exact ih h

/-! ## Increments of tasks of jobs -/

/-- What the tasks of a job come to: the counters of each, merged one behind
another. -/
def ofTasks (tasks : List (List Increment)) : Counters :=
  mergeAll (tasks.map ofIncrements)

@[simp] theorem ofTasks_nil : ofTasks [] = .empty := rfl

theorem mergeAll_ofTasks (jobs : List (List (List Increment))) :
    mergeAll (jobs.map ofTasks) = ofIncrements jobs.flatten.flatten := by
  have hjobs : jobs.map ofTasks = (jobs.map List.flatten).map ofIncrements := by
    rw [List.map_map]
    exact List.map_congr_left fun tasks _ => mergeAll_ofIncrements tasks
  rw [hjobs, mergeAll_ofIncrements, List.flatten_flatten]

/-- What the tasks of jobs come to when they are counted in 64 bits: each task
on its own, then the tasks of each job, then the jobs. -/
def ofJobsInWords? (jobs : List (List (List Increment))) : Option Counters :=
  mergeWords? (mergeWords? (addWords? .empty) .empty) .empty jobs

theorem ofJobsInWords?_eq_some {jobs : List (List (List Increment))}
    (h : (ofIncrements jobs.flatten.flatten).Fits) :
    ofJobsInWords? jobs = some (ofIncrements jobs.flatten.flatten) := by
  have htasks : ∀ tasks : List (List Increment),
      (ofIncrements tasks.flatten).Fits →
      mergeWords? (addWords? .empty) .empty tasks =
        some (ofIncrements tasks.flatten) := by
    intro tasks hfits
    rw [← List.flatMap_id] at hfits ⊢
    exact mergeWords?_eq_some (fun _ hpart => addWords?_eq_some hpart) hfits
  rw [List.flatten_flatten, ← List.flatMap_def] at h ⊢
  exact mergeWords?_eq_some htasks h

end Counters

end JobChain
