import JobChain.Engine
import JobChain.Proofs.Grouping
import Mathlib.Data.List.Nodup

/-!
# Partitions of records

A record goes to the partition that the text of its key picks. Where an order of
keys tells them apart by their text, its classes are not cut, so that the groups
of all partitions are those of all records, however many partitions there are.
-/

namespace JobChain.Engine

open Pair (keys sharing mem_keys)

/-! ## Partitions of keys -/

theorem partitionOf_lt {count : Nat} (h : 0 < count) (key : Json) :
    partitionOf count key < count := by
  have hmod : max (count % 2 ^ 32) 1 ≤ count :=
    Nat.max_le.2 ⟨Nat.mod_le .., h⟩
  exact Nat.lt_of_lt_of_le (Nat.mod_lt _ (by omega)) hmod

private theorem partitionOf_congr {x y : Json} (h : x.text = y.text)
    (count : Nat) : partitionOf count x = partitionOf count y := by
  rw [partitionOf, partitionOf, h]

/-- Keys that are equal in an order go the same way, unless it blurs them. -/
theorem partitionOf_eq_of_compare_eq {order : KeyOrder} {x y : Json}
    (h : order.compare x y = .eq) (hclear : order.blurs x y = false)
    (count : Nat) : partitionOf count x = partitionOf count y :=
  partitionOf_congr (KeyOrder.text_eq_of_compare_eq h hclear) count

/-! ## Partitions of records -/

def partition (count index : Nat) (pairs : List Pair) : List Pair :=
  pairs.filter fun pair => partitionOf count pair.key = index

theorem partitions_eq (count : Nat) (pairs : List Pair) :
    partitions count pairs = (List.range count).map fun index =>
      partition count index pairs := by
  refine List.map_congr_left fun index _ => ?_
  induction pairs with
  | nil => rfl
  | cons pair rest ih =>
      by_cases hindex : partitionOf count pair.key = index
      · simpa [partition, hindex] using ih
      · simpa [partition, hindex] using ih

section

variable {order : KeyOrder} {pairs : List Pair} {count index : Nat}
  {pair : Pair} {group : Group}

theorem mem_partition :
    pair ∈ partition count index pairs ↔ pair ∈ pairs ∧
    partitionOf count pair.key = index := by
  simp [partition]

def Whole (order : KeyOrder) (count : Nat) (pairs : List Pair) : Prop :=
  ∀ first ∈ pairs, ∀ second ∈ pairs, order.compare first.key second.key = .eq →
    partitionOf count first.key = partitionOf count second.key

variable (hwhole : Whole order count pairs)

include hwhole

private theorem sharing_partition (hpair : pair ∈ partition count index pairs) :
    sharing order pair.key (partition count index pairs) =
      sharing order pair.key pairs := by
  obtain ⟨hmem, hindex⟩ := mem_partition.1 hpair
  unfold sharing partition
  rw [List.filter_filter]
  refine List.filter_congr fun other hother => ?_
  by_cases hequal : order.compare pair.key other.key = .eq
  · simp [hequal, ← hwhole pair hmem other hother hequal, hindex]
  · simp [hequal]

variable (htrans : order.IsTransOn (keys pairs))

include htrans

private theorem mem_ofPairs_partition_iff :
    group ∈ Group.ofPairs order (partition count index pairs) ↔
      ∃ pair ∈ partition count index pairs, Group.ofKey? order pair.key pairs =
        some group := by
  have hsub : (partition count index pairs).Sublist pairs := List.filter_sublist
  rw [Group.mem_ofPairs_iff
    (htrans.mono fun key hkey => (hsub.map Pair.key).mem hkey)]
  refine exists_congr fun pair => and_congr_right fun hpair => ?_
  rw [Group.ofKey?, sharing_partition hwhole hpair, Group.ofKey?]

private theorem partitionOf_key
    (hgroup : group ∈ Group.ofPairs order (partition count index pairs)) :
    partitionOf count group.key = index := by
  obtain ⟨pair, hpair, hofKey⟩ :=
    (mem_ofPairs_partition_iff hwhole htrans).1 hgroup
  obtain ⟨hmem, hindex⟩ := mem_partition.1 hpair
  obtain ⟨member, hmember, hkey, hequal⟩ := Group.exists_of_ofKey? hofKey
  rw [← hkey, ← hwhole pair hmem member hmember hequal, hindex]

theorem groups_perm (hcount : 0 < count) :
    ((partitions count pairs).flatMap (Group.ofPairs order)).Perm
      (Group.ofPairs order pairs) := by
  rw [partitions_eq, List.flatMap_map]
  refine (List.perm_ext_iff_of_nodup ?_ (Group.nodup_ofPairs htrans)).2
    fun group => ?_
  · refine List.nodup_flatMap.2 ⟨fun index _ => ?_, ?_⟩
    · have hsub : (partition count index pairs).Sublist pairs :=
        List.filter_sublist
      exact Group.nodup_ofPairs (htrans.mono fun key hkey =>
        (hsub.map Pair.key).mem hkey)
    · refine List.nodup_range.imp fun hne group hgroup hgroup' => hne ?_
      rw [← partitionOf_key hwhole htrans hgroup,
        partitionOf_key hwhole htrans hgroup']
  · rw [List.mem_flatMap, Group.mem_ofPairs_iff htrans]
    constructor
    · rintro ⟨index, -, hgroup⟩
      obtain ⟨pair, hpair, hofKey⟩ :=
        (mem_ofPairs_partition_iff hwhole htrans).1 hgroup
      exact ⟨pair, (mem_partition.1 hpair).1, hofKey⟩
    · rintro ⟨pair, hpair, hofKey⟩
      refine ⟨partitionOf count pair.key,
        List.mem_range.2 (partitionOf_lt hcount _), ?_⟩
      exact (mem_ofPairs_partition_iff hwhole htrans).2
        ⟨pair, mem_partition.2 ⟨hpair, rfl⟩, hofKey⟩

end

end JobChain.Engine
