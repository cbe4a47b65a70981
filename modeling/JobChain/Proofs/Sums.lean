import JobChain.Proofs.Engine.Tasks
import JobChain.Proofs.Json.Integral
import JobChain.Proofs.Sums.Integers
import Mathlib.Data.List.Sort

/-!
# Sums by key

Adding up the natural numbers of each key is determined by the keys and by what
each of them has in all. So it makes no difference whether parts of the records
have been added up before, in what order the records come and how they are
divided.
-/

namespace JobChain

/-! ## Natural numbers -/

namespace Json

private theorem eq_ofNat_of_toNat? {value : Json} {n : Nat}
    (h : value.toNat? = some n) : value = .ofNat n ∧ n < 2 ^ 64 := by
  cases value with
  | number number =>
      cases number with
      | int m hrange =>
          obtain rfl : m = n := Int.mem_toNat?.1 h
          refine ⟨?_, by omega⟩
          rw [ofNat, ofInt, dif_pos hrange]
      | float x hfinite => cases h
  | _ => cases h

private theorem returns_ofNat {n : Nat} (h : n < 2 ^ 64)
    (room : Nat) : (ofNat n).Returns room := by
  have hrange : -0x8000000000000000 ≤ (n : Int) ∧
      (n : Int) < 0x10000000000000000 := by omega
  rw [ofNat, ofInt, dif_pos hrange]
  exact @returns_of_flat (.number (.int n hrange)) rfl
    (Number.isStable_int n hrange) room

end Json

/-! ## Counts -/

namespace Pair

def amount (pair : Pair) : Nat := pair.value.toNat?.getD 0

def total (key : Json) (pairs : List Pair) : Nat :=
  ((pairs.filter fun pair => pair.key = key).map amount).sum

/-- Records that can be added up by key: their keys are told apart, they hold
natural numbers, and no key has too much in all. -/
structure AreCounts (pairs : List Pair) : Prop where
  isKey : ∀ pair ∈ pairs, pair.key.IsKey
  isNatural : ∀ pair ∈ pairs, pair.value.toNat?.isSome = true
  bounded : ∀ key, total key pairs < 2 ^ 64

variable {pairs : List Pair} {pair : Pair}

private theorem total_append (key : Json) (front back : List Pair) :
    total key (front ++ back) = total key front + total key back := by
  simp [total]

private theorem total_flatten (key : Json) (parts : List (List Pair)) :
    total key parts.flatten = (parts.map (total key)).sum := by
  induction parts with
  | nil => rfl
  | cons part rest ih =>
      rw [List.flatten_cons, total_append, ih, List.map_cons, List.sum_cons]

private theorem total_filter (key : Json) (test : Json → Bool)
    (pairs : List Pair) :
    total key (pairs.filter fun pair => test pair.key) =
      if test key then total key pairs else 0 := by
  rw [total, List.filter_filter]
  split_ifs with htest
  · congr 2
    refine List.filter_congr fun pair _ => ?_
    by_cases hkey : pair.key = key <;> simp [hkey, htest]
  · have hnone : (pairs.filter fun pair => decide (pair.key = key) &&
        test pair.key) = [] := by
      refine List.filter_eq_nil_iff.2 fun pair _ => ?_
      by_cases hkey : pair.key = key <;> simp [hkey, htest]
    rw [hnone]
    rfl

private theorem total_eq_zero {key : Json}
    (h : key ∉ keys pairs) : total key pairs = 0 := by
  have hnone : (pairs.filter fun pair => pair.key = key) = [] := by
    refine List.filter_eq_nil_iff.2 fun pair hpair => ?_
    have hne : pair.key ≠ key := fun heq => h (heq ▸ mem_keys hpair)
    simpa using hne
  rw [total, hnone]
  rfl

namespace AreCounts

private theorem value_eq (h : AreCounts pairs) (hpair : pair ∈ pairs) :
    pair.value = .ofNat pair.amount ∧ pair.amount < 2 ^ 64 := by
  obtain ⟨n, hn⟩ := Option.isSome_iff_exists.1 (h.isNatural pair hpair)
  have hamount : pair.amount = n := by rw [amount, hn, Option.getD_some]
  rw [hamount]
  exact Json.eq_ofNat_of_toNat? hn

theorem returns (h : AreCounts pairs) : ∀ pair ∈ pairs, pair.Returns := by
  intro pair hpair
  obtain ⟨hvalue, hbound⟩ := h.value_eq hpair
  exact ⟨(h.isKey pair hpair).returns, hvalue ▸ Json.returns_ofNat hbound _⟩

private theorem isTransOn (h : AreCounts pairs) {order : KeyOrder}
    (horder : order ≠ .numeric) : order.IsTransOn (keys pairs) :=
  KeyOrder.isTransOn_of_isIntegral horder fun key hkey => by
    obtain ⟨owner, howner, rfl⟩ := List.mem_map.1 hkey
    exact (h.isKey owner howner).integral

theorem filter (h : AreCounts pairs) (test : Json → Bool) :
    AreCounts (pairs.filter fun pair => test pair.key) where
  isKey pair hpair := h.isKey pair (List.mem_of_mem_filter hpair)
  isNatural pair hpair := h.isNatural pair (List.mem_of_mem_filter hpair)
  bounded key := by
    have hbound := h.bounded key
    rw [total_filter]
    split_ifs <;> omega

theorem of_mem {parts : List (List Pair)} (h : AreCounts parts.flatten)
    {part : List Pair} (hpart : part ∈ parts) : AreCounts part where
  isKey pair hpair := h.isKey pair (List.mem_flatten_of_mem hpart hpair)
  isNatural pair hpair := h.isNatural pair (List.mem_flatten_of_mem hpart hpair)
  bounded key := by
    obtain ⟨front, back, rfl⟩ := List.append_of_mem hpart
    have hbound := h.bounded key
    rw [List.flatten_append, List.flatten_cons, total_append, total_append]
      at hbound
    omega

end AreCounts

end Pair

/-! ## Sums -/

namespace Group

open Pair (keys sharing total AreCounts)

def sums (order : KeyOrder) (pairs : List Pair) : List Pair :=
  (ofPairs order pairs).map fun group => ⟨group.key, Builtin.sum group.values⟩

variable {order : KeyOrder} {pairs : List Pair} {pair : Pair}

private theorem ofKey?_of_mem (horder : order ≠ .numeric) (h : AreCounts pairs)
    {key : Json} (hkey : key ∈ keys pairs) :
    ofKey? order key pairs =
      some ⟨key, (pairs.filter fun pair => pair.key = key).map Pair.value⟩ := by
  obtain ⟨owner, howner, rfl⟩ := List.mem_map.1 hkey
  have hsharing : sharing order owner.key pairs = pairs.filter fun pair =>
      pair.key = owner.key := by
    refine List.filter_congr fun pair hpair => ?_
    rw [decide_eq_decide,
      KeyOrder.compare_eq_iff_of_isIntegral horder
        (h.isKey owner howner).integral (h.isKey pair hpair).integral]
    exact eq_comm
  rw [ofKey?, hsharing]
  cases hlist : pairs.filter fun pair => pair.key = owner.key with
  | nil => simp [List.filter_eq_nil_iff] at hlist; exact absurd rfl (hlist owner howner)
  | cons first rest =>
      have hfirst : first ∈ pairs.filter fun pair => pair.key = owner.key := by
        simp [hlist]
      have hfirstKey : first.key = owner.key := by
        simpa using (List.mem_filter.1 hfirst).2
      rw [ofSharing?, hfirstKey]

/-- There is one sum for each key, and it is all that the key has. -/
theorem mem_sums_iff (horder : order ≠ .numeric) (h : AreCounts pairs) :
    pair ∈ sums order pairs ↔ pair.key ∈ keys pairs ∧
    pair.value = .ofNat (total pair.key pairs) := by
  have htrans := h.isTransOn horder
  have hsum : ∀ key,
      Builtin.sum ((pairs.filter fun pair => pair.key = key).map Pair.value) =
      .ofNat (total key pairs) := by
    intro key
    have hbound := h.bounded key
    rw [total, show Pair.amount = (fun value : Json => value.toNat?.getD 0) ∘
      Pair.value from rfl, ← List.map_map] at hbound ⊢
    refine Builtin.sum_eq_ofNat (fun value hvalue => ?_) hbound
    obtain ⟨owner, howner, rfl⟩ := List.mem_map.1 hvalue
    exact h.isNatural owner (List.mem_of_mem_filter howner)
  rw [sums, List.mem_map]
  constructor
  · rintro ⟨group, hgroup, rfl⟩
    obtain ⟨owner, howner, hofKey⟩ := (mem_ofPairs_iff htrans).1 hgroup
    have hkey := Pair.mem_keys howner
    rw [ofKey?_of_mem horder h hkey] at hofKey
    obtain rfl := Option.some.inj hofKey
    exact ⟨hkey, hsum owner.key⟩
  · rintro ⟨hkey, hvalue⟩
    refine ⟨⟨pair.key,
      (pairs.filter fun other => other.key = pair.key).map Pair.value⟩, ?_, ?_⟩
    · obtain ⟨owner, howner, heq⟩ := List.mem_map.1 hkey
      refine (mem_ofPairs_iff htrans).2 ⟨owner, howner, ?_⟩
      rw [heq]
      exact ofKey?_of_mem horder h hkey
    · rw [hsum, ← hvalue]

theorem pairwise_sums (horder : order ≠ .numeric) (h : AreCounts pairs) :
    (sums order pairs).Pairwise fun x y => order.compare x.key y.key = .lt :=
  List.pairwise_map.2 (pairwise_ofPairs (h.isTransOn horder))

private theorem nodup_of_pairwise
    (h : pairs.Pairwise fun x y => order.compare x.key y.key = .lt) :
    pairs.Nodup :=
  h.imp fun hlt heq => by simp [heq] at hlt

theorem nodup_sums (horder : order ≠ .numeric)
    (h : AreCounts pairs) : (sums order pairs).Nodup :=
  nodup_of_pairwise (pairwise_sums horder h)

private theorem mem_keys_sums_iff (horder : order ≠ .numeric)
    (h : AreCounts pairs) {key : Json} : key ∈ keys (sums order pairs) ↔
    key ∈ keys pairs := by
  constructor
  · intro hkey
    obtain ⟨pair, hpair, rfl⟩ := List.mem_map.1 hkey
    exact ((mem_sums_iff horder h).1 hpair).1
  · intro hkey
    have hsum :
        (⟨key, .ofNat (total key pairs)⟩ : Pair) ∈ sums order pairs := by
      rw [mem_sums_iff horder h]
      simp only [hkey, and_self]
    exact Pair.mem_keys hsum

private theorem total_sums (horder : order ≠ .numeric) (h : AreCounts pairs)
    (key : Json) : total key (sums order pairs) = total key pairs := by
  by_cases hkey : key ∈ keys pairs
  · have hall : (sums order pairs).filter (fun pair => pair.key = key) =
        [⟨key, .ofNat (total key pairs)⟩] := by
      apply List.perm_singleton.1
      refine (List.perm_ext_iff_of_nodup ((nodup_sums horder h).filter _)
        (by simp)).2 fun pair => ?_
      rw [List.mem_filter, mem_sums_iff horder h, List.mem_singleton,
        decide_eq_true_eq]
      constructor
      · rintro ⟨⟨-, hvalue⟩, rfl⟩
        rw [← hvalue]
      · rintro rfl
        simp only [hkey, and_self]
    have hamount : Pair.amount ⟨key, .ofNat (total key pairs)⟩ =
        total key pairs := by
      rw [Pair.amount, Json.toNat?_ofNat (h.bounded key), Option.getD_some]
    rw [total, hall, List.map_singleton, List.sum_singleton, hamount]
  · rw [Pair.total_eq_zero hkey,
      Pair.total_eq_zero ((mem_keys_sums_iff horder h).not.2 hkey)]

private theorem areCounts_sums (horder : order ≠ .numeric)
    (h : AreCounts pairs) : AreCounts (sums order pairs) where
  isKey pair hpair := by
    obtain ⟨owner, howner, heq⟩ :=
      List.mem_map.1 ((mem_sums_iff horder h).1 hpair).1
    exact heq ▸ h.isKey owner howner
  isNatural pair hpair := by
    rw [((mem_sums_iff horder h).1 hpair).2,
      Json.toNat?_ofNat (h.bounded pair.key)]
    rfl
  bounded key := by
    rw [total_sums horder h]
    exact h.bounded key

/-! ### Sums of sums -/

/-- Records in the order of their keys are determined by which ones there
are. -/
theorem eq_of_mem_iff {others : List Pair}
    (h : pairs.Pairwise fun x y => order.compare x.key y.key = .lt)
    (h' : others.Pairwise fun x y => order.compare x.key y.key = .lt)
    (hmem : ∀ pair, pair ∈ pairs ↔ pair ∈ others) : pairs = others := by
  have hperm :=
    (List.perm_ext_iff_of_nodup (nodup_of_pairwise h)
      (nodup_of_pairwise h')).2 hmem
  refine hperm.eq_of_pairwise (fun x y _ _ hlt hgt => ?_) h h'
  rw [order.compare_swap x.key y.key, hlt] at hgt
  cases hgt

private theorem sums_congr (horder : order ≠ .numeric) {others : List Pair}
    (h : AreCounts pairs) (h' : AreCounts others)
    (hkeys : ∀ key, key ∈ keys pairs ↔ key ∈ keys others)
    (htotal : ∀ key, total key pairs = total key others) :
    sums order pairs = sums order others := by
  apply eq_of_mem_iff (pairwise_sums horder h) (pairwise_sums horder h')
  intro pair
  rw [mem_sums_iff horder h, mem_sums_iff horder h', hkeys, htotal]

/-- The sums of the records of some keys are those of all records. -/
theorem sums_filter (horder : order ≠ .numeric) (h : AreCounts pairs)
    (test : Json → Bool) : sums order (pairs.filter fun pair => test pair.key) =
      (sums order pairs).filter fun pair => test pair.key := by
  have hpart := h.filter test
  have hkeys : ∀ key, key ∈ keys (pairs.filter fun pair => test pair.key) ↔
      key ∈ keys pairs ∧ test key = true := by
    intro key
    simp only [keys, List.mem_map, List.mem_filter]
    constructor
    · rintro ⟨pair, ⟨hpair, htest⟩, rfl⟩
      exact ⟨⟨pair, hpair, rfl⟩, htest⟩
    · rintro ⟨⟨pair, hpair, rfl⟩, htest⟩
      exact ⟨pair, ⟨hpair, htest⟩, rfl⟩
  apply eq_of_mem_iff (pairwise_sums horder hpart)
    ((pairwise_sums horder h).filter _)
  intro pair
  rw [List.mem_filter, mem_sums_iff horder hpart, mem_sums_iff horder h, hkeys,
    Pair.total_filter]
  by_cases htest : test pair.key = true <;> simp [htest]

section

variable {parts : List (List Pair)} (horder : order ≠ .numeric)
  (h : AreCounts parts.flatten)

include horder h

private theorem mem_keys_flatMap_sums_iff {key : Json} :
    key ∈ keys (parts.flatMap (sums order)) ↔ key ∈ keys parts.flatten := by
  have hpart : ∀ part ∈ parts, key ∈ keys (sums order part) ↔ key ∈ keys part :=
    fun part hpart => mem_keys_sums_iff horder (h.of_mem hpart)
  simp only [keys, List.map_flatMap, List.map_flatten, List.mem_flatMap,
    List.mem_flatten, List.mem_map, exists_exists_and_eq_and]
  exact exists_congr fun part => and_congr_right fun hmem => by
    simpa only [keys, List.mem_map] using hpart part hmem

private theorem total_flatMap_sums (key : Json) :
    total key (parts.flatMap (sums order)) = total key parts.flatten := by
  rw [List.flatMap_def, Pair.total_flatten, Pair.total_flatten, List.map_map]
  congr 1
  exact List.map_congr_left fun part hpart =>
    total_sums horder (h.of_mem hpart) key

theorem areCounts_flatMap_sums : AreCounts (parts.flatMap (sums order)) where
  isKey pair hpair := by
    obtain ⟨part, hpart, hmem⟩ := List.mem_flatMap.1 hpair
    exact (areCounts_sums horder (h.of_mem hpart)).isKey pair hmem
  isNatural pair hpair := by
    obtain ⟨part, hpart, hmem⟩ := List.mem_flatMap.1 hpair
    exact (areCounts_sums horder (h.of_mem hpart)).isNatural pair hmem
  bounded key := by
    rw [total_flatMap_sums horder h]
    exact h.bounded key

theorem sums_flatMap_sums :
    sums order (parts.flatMap (sums order)) = sums order parts.flatten := by
  apply sums_congr horder (areCounts_flatMap_sums horder h) h
  · exact fun key => mem_keys_flatMap_sums_iff horder h
  · exact total_flatMap_sums horder h

end

end Group

end JobChain
