/-!
# Sorted maps

Finite maps kept as association lists in strictly increasing key order. An
insertion is seen by every later lookup of its key and by no other
(`SortedMap.get?_insert`), and two maps that answer every lookup alike are equal
(`SortedMap.ext_get?`).
-/

namespace JobChain

universe u v w

/-! ## Association lists -/

namespace Assoc

variable {κ : Type u} {α : Type v} [Ord κ]

def Sorted (entries : List (κ × α)) : Prop :=
  entries.Pairwise fun a b => compare a.1 b.1 = .lt

def lookup (key : κ) : List (κ × α) → Option α
  | [] => none
  | (k, v) :: rest => if compare key k = .eq then some v else lookup key rest

/-- Puts a value under its key, in place of an earlier one. -/
def insert (key : κ) (value : α) : List (κ × α) → List (κ × α)
  | [] => [(key, value)]
  | (k, v) :: rest =>
      match compare key k with
      | .lt => (key, value) :: (k, v) :: rest
      | .eq => (key, value) :: rest
      | .gt => (k, v) :: insert key value rest

theorem mem_insert {key : κ} {value : α} {entries : List (κ × α)}
    {entry : κ × α} (h : entry ∈ insert key value entries) :
    entry = (key, value) ∨ entry ∈ entries := by
  induction entries with
  | nil => simpa [insert] using h
  | cons head rest ih =>
      obtain ⟨k, v⟩ := head
      simp only [insert] at h
      split at h
      · simpa using h
      · rcases List.mem_cons.1 h with h | h
        · exact .inl h
        · exact .inr (List.mem_cons_of_mem _ h)
      · rcases List.mem_cons.1 h with h | h
        · exact .inr (h ▸ List.mem_cons_self)
        · exact (ih h).imp id (List.mem_cons_of_mem _)

theorem sorted_insert [Std.TransOrd κ] {key : κ} {value : α}
    {entries : List (κ × α)} (h : Sorted entries) :
    Sorted (insert key value entries) := by
  induction entries with
  | nil => simp [insert, Sorted]
  | cons head rest ih =>
      obtain ⟨k, v⟩ := head
      have hhead := (List.pairwise_cons.1 h).1
      have hrest := (List.pairwise_cons.1 h).2
      simp only [insert]
      split
      · rename_i hlt
        refine List.pairwise_cons.2 ⟨fun entry hentry => ?_, h⟩
        rcases List.mem_cons.1 hentry with rfl | hentry
        · exact hlt
        · exact Std.TransCmp.lt_trans hlt (hhead entry hentry)
      · rename_i heq
        refine List.pairwise_cons.2 ⟨fun entry hentry => ?_, hrest⟩
        exact Std.TransCmp.lt_of_eq_of_lt heq (hhead entry hentry)
      · rename_i hgt
        refine List.pairwise_cons.2 ⟨fun entry hentry => ?_, ih hrest⟩
        rcases mem_insert hentry with rfl | hentry
        · exact Std.OrientedCmp.lt_of_gt hgt
        · exact hhead entry hentry

private theorem lookup_insert [Std.TransOrd κ] [Std.LawfulEqOrd κ]
    [DecidableEq κ] (key other : κ) (value : α) (entries : List (κ × α))
    (h : Sorted entries) : lookup other (insert key value entries) =
      if other = key then some value else lookup other entries := by
  induction entries with
  | nil => by_cases heq : other = key <;> simp [insert, lookup, heq]
  | cons head rest ih =>
      obtain ⟨k, v⟩ := head
      have hrest := (List.pairwise_cons.1 h).2
      simp only [insert]
      split
      · by_cases heq : other = key <;> simp [lookup, heq]
      · rename_i heq
        obtain rfl := Std.LawfulEqCmp.eq_of_compare heq
        by_cases heq : other = key <;> simp [lookup, heq]
      · rename_i hgt
        by_cases hk : other = k
        · subst hk
          have hne : other ≠ key := fun heq => by simp [heq] at hgt
          simp [lookup, hne]
        · simp [lookup, hk, ih hrest]

theorem mem_of_lookup [Std.LawfulEqOrd κ] {key : κ} {value : α}
    {entries : List (κ × α)}
    (h : lookup key entries = some value) : (key, value) ∈ entries := by
  induction entries with
  | nil => simp [lookup] at h
  | cons head rest ih =>
      obtain ⟨k, v⟩ := head
      simp only [lookup] at h
      split at h
      · rename_i heq
        obtain rfl := Std.LawfulEqCmp.eq_of_compare heq
        simp_all
      · exact List.mem_cons_of_mem _ (ih h)

theorem lookup_of_mem [Std.TransOrd κ] [Std.LawfulEqOrd κ]
    {entries : List (κ × α)} (h : Sorted entries) {entry : κ × α}
    (hentry : entry ∈ entries) : lookup entry.1 entries = some entry.2 := by
  induction entries with
  | nil => simp at hentry
  | cons head rest ih =>
      obtain ⟨k, v⟩ := head
      rcases List.mem_cons.1 hentry with rfl | hentry
      · simp [lookup]
      · have hlt := (List.pairwise_cons.1 h).1 entry hentry
        have hne : compare entry.1 k ≠ .eq := fun heq => by
          have := Std.LawfulEqCmp.eq_of_compare heq
          simp_all
        simp [lookup, hne, ih (List.pairwise_cons.1 h).2 hentry]

theorem eq_of_mem_iff [Std.TransOrd κ] {left right : List (κ × α)}
    (hleft : Sorted left) (hright : Sorted right)
    (h : ∀ entry, entry ∈ left ↔ entry ∈ right) : left = right := by
  induction left generalizing right with
  | nil =>
      cases right with
      | nil => rfl
      | cons head rest => exact absurd ((h head).2 List.mem_cons_self) (by simp)
  | cons x xs ih =>
      cases right with
      | nil => exact absurd ((h x).1 List.mem_cons_self) (by simp)
      | cons y ys =>
          have hx := (List.pairwise_cons.1 hleft).1
          have hy := (List.pairwise_cons.1 hright).1
          have irrefl : ∀ entry : κ × α,
              compare entry.1 entry.1 ≠ .lt := fun entry => by
            simp
          have hxy : x = y := by
            rcases List.mem_cons.1 ((h x).1 List.mem_cons_self) with hxy | hxy
            · exact hxy
            rcases List.mem_cons.1 ((h y).2 List.mem_cons_self) with hyx | hyx
            · exact hyx.symm
            exact absurd (Std.TransCmp.lt_trans (hx y hyx) (hy x hxy))
              (irrefl x)
          subst hxy
          congr 1
          refine ih (List.pairwise_cons.1 hleft).2
            (List.pairwise_cons.1 hright).2 fun entry => ?_
          have hentry := h entry
          simp only [List.mem_cons] at hentry
          constructor
          · intro hmem
            rcases hentry.1 (.inr hmem) with rfl | hmem'
            · exact absurd (hx entry hmem) (irrefl entry)
            · exact hmem'
          · intro hmem
            rcases hentry.2 (.inr hmem) with rfl | hmem'
            · exact absurd (hy entry hmem) (irrefl entry)
            · exact hmem'

end Assoc

/-! ## Maps -/

structure SortedMap (κ : Type u) [Ord κ] (α : Type v) where
  entries : List (κ × α)
  sorted : Assoc.Sorted entries

namespace SortedMap

variable {κ : Type u} [Ord κ] {α : Type v}

def empty : SortedMap κ α := ⟨[], List.Pairwise.nil⟩

instance : Inhabited (SortedMap κ α) := ⟨empty⟩

instance [DecidableEq κ] [DecidableEq α] : DecidableEq (SortedMap κ α)
  | ⟨xs, _⟩, ⟨ys, _⟩ =>
      if h : xs = ys then isTrue (by subst h; rfl)
      else isFalse fun heq => h (congrArg entries heq)

def get? (map : SortedMap κ α) (key : κ) : Option α :=
  Assoc.lookup key map.entries

def contains (map : SortedMap κ α) (key : κ) : Bool := (map.get? key).isSome

def size (map : SortedMap κ α) : Nat := map.entries.length

def isEmpty (map : SortedMap κ α) : Bool := map.entries.isEmpty

def toList (map : SortedMap κ α) : List (κ × α) := map.entries

def insert [Std.TransOrd κ] (map : SortedMap κ α) (key : κ)
    (value : α) : SortedMap κ α :=
  ⟨Assoc.insert key value map.entries, Assoc.sorted_insert map.sorted⟩

/-- Keeps the entries that pass a test. -/
def filter (keep : κ → α → Bool) (map : SortedMap κ α) : SortedMap κ α :=
  ⟨map.entries.filter fun entry => keep entry.1 entry.2,
    map.sorted.sublist List.filter_sublist⟩

def erase (map : SortedMap κ α) (key : κ) : SortedMap κ α :=
  map.filter fun k _ => compare key k ≠ .eq

/-- Inserts the entries of a list in turn, so that the last one of a key
stays. -/
def insertAll [Std.TransOrd κ] (map : SortedMap κ α)
    (entries : List (κ × α)) : SortedMap κ α :=
  entries.foldl (fun m entry => m.insert entry.1 entry.2) map

def ofList [Std.TransOrd κ] (entries : List (κ × α)) : SortedMap κ α :=
  empty.insertAll entries

/-- Puts the value that a function makes of the present one. -/
def update [Std.TransOrd κ] (map : SortedMap κ α) (key : κ)
    (value : Option α → α) : SortedMap κ α :=
  map.insert key (value (map.get? key))

private theorem ext_entries {left right : SortedMap κ α}
    (h : left.entries = right.entries) : left = right := by
  obtain ⟨xs, _⟩ := left
  obtain ⟨ys, _⟩ := right
  obtain rfl : xs = ys := h
  rfl

@[simp] theorem get?_empty (key : κ) :
    (empty : SortedMap κ α).get? key = none := rfl

@[simp] theorem toList_empty : (empty : SortedMap κ α).toList = [] := rfl

section Lawful

variable [Std.TransOrd κ] [Std.LawfulEqOrd κ]

theorem get?_eq_some_iff {map : SortedMap κ α} {key : κ} {value : α} :
    map.get? key = some value ↔ (key, value) ∈ map.toList :=
  ⟨Assoc.mem_of_lookup, fun h => Assoc.lookup_of_mem map.sorted h⟩

/-- A map is determined by its answers. -/
theorem ext_get? {left right : SortedMap κ α}
    (h : ∀ key, left.get? key = right.get? key) : left = right := by
  refine ext_entries (Assoc.eq_of_mem_iff left.sorted right.sorted
    fun ⟨key, value⟩ => ?_)
  have hleft : left.get? key = some value ↔ (key, value) ∈ left.toList :=
    get?_eq_some_iff
  have hright : right.get? key = some value ↔ (key, value) ∈ right.toList :=
    get?_eq_some_iff
  rw [h key] at hleft
  exact hleft.symm.trans hright

theorem get?_insert [DecidableEq κ] (map : SortedMap κ α) (key other : κ)
    (value : α) : (map.insert key value).get? other =
    if other = key then some value else map.get? other := by
  have h := Assoc.lookup_insert key other value map.entries map.sorted
  simp only [insert, get?, h]

theorem get?_filter (keep : κ → α → Bool) (map : SortedMap κ α) (key : κ) :
    (map.filter keep).get? key = (map.get? key).filter (keep key) := by
  apply Option.ext
  intro value
  rw [get?_eq_some_iff, Option.filter_eq_some_iff, get?_eq_some_iff]
  simp [filter, toList]

theorem get?_erase [DecidableEq κ] (map : SortedMap κ α) (key other : κ) :
    (map.erase key).get? other =
      if other = key then none else map.get? other := by
  rw [erase, get?_filter]
  by_cases h : other = key
  · subst h
    cases map.get? other <;> simp [Option.filter]
  · have hne : compare key other ≠ .eq :=
      fun heq => h (Std.LawfulEqCmp.eq_of_compare heq).symm
    cases hother : map.get? other <;> simp [Option.filter, h, hne]

end Lawful

end SortedMap

end JobChain
