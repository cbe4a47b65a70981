import JobChain.Builtin
import Mathlib.Algebra.GroupWithZero.Nat
import Mathlib.Algebra.Order.BigOperators.Group.List
import Mathlib.Algebra.Order.Group.Int
import Mathlib.Algebra.Ring.Int.Defs

/-!
# Sums of integers

A sum of integers of which none is negative, and which 64 bits hold, is exact:
neither the order of the list matters nor whether parts of it were added up
before. One negative integer is enough for the sum to be a floating-point
number, and so is a total that 64 bits do not hold.
-/

namespace JobChain

namespace Json

def IsWord (n : Int) : Prop := -0x8000000000000000 ≤ n ∧ n < 0x10000000000000000

instance (n : Int) : Decidable (IsWord n) := inferInstanceAs (Decidable (_ ∧ _))

def integer? : Json → Option Int
  | .number (.int n _) => some n
  | _ => none

private theorem ofInt_eq {n : Int} (h : IsWord n) :
    ofInt n = .number (.int n h) := dif_pos h

private theorem integer?_ofInt {n : Int}
    (h : IsWord n) : (ofInt n).integer? = some n := by
  rw [ofInt_eq h]
  rfl

private theorem integer?_ofBinary64 (x : Binary64) :
    (ofBinary64 x).integer? = none := by
  unfold ofBinary64
  split <;> rfl

private theorem toNat?_ofInt {n : Int} (h : IsWord n) :
    (ofInt n).toNat? = if 0 ≤ n then some n.toNat else none := by
  rw [ofInt_eq h]
  cases n <;> rfl

theorem toNat?_ofNat {n : Nat}
    (h : n < 2 ^ 64) : (ofNat n).toNat? = some n := by
  have hword : IsWord n := ⟨by omega, by omega⟩
  rw [ofNat, toNat?_ofInt hword]
  rfl

end Json

namespace Builtin

/-! ## When the addition goes through -/

/-- From a number on, the addition goes through just if all values are natural
numbers and the total is small enough; no total in between is larger. -/
theorem foldlM_naturals (values : List Json) {start : Nat}
    (hstart : start < 2 ^ 64) : values.foldlM (fun total value => do
      let n ← value.toNat?
      if total + n < 0x10000000000000000 then some (total + n)
      else none) start =
      if (∀ value ∈ values, value.toNat?.isSome = true) ∧
        start + (values.map fun value => value.toNat?.getD 0).sum < 2 ^ 64 then
        some (start + (values.map fun value => value.toNat?.getD 0).sum)
      else none := by
  induction values generalizing start with
  | nil => simpa using hstart
  | cons value rest ih =>
      rw [List.foldlM_cons]
      simp only [List.forall_mem_cons, List.map_cons, List.sum_cons]
      cases hvalue : value.toNat? with
      | none => simp
      | some n =>
          simp only [Option.isSome_some, true_and, Option.getD_some,
            ← Nat.add_assoc]
          by_cases hsmall : start + n < 0x10000000000000000
          · rw [← ih hsmall]
            exact congrArg (· >>= _) (if_pos hsmall)
          · rw [if_neg fun h => by omega]
            exact congrArg (· >>= _) (if_neg hsmall)

private theorem naturalSum?_eq (values : List Json) :
    naturalSum? values =
      if (∀ value ∈ values, value.toNat?.isSome = true) ∧
        (values.map fun value => value.toNat?.getD 0).sum < 2 ^ 64 then
        some (values.map fun value => value.toNat?.getD 0).sum
      else none := by
  have hall := foldlM_naturals values (show 0 < 2 ^ 64 by decide)
  rw [Nat.zero_add] at hall
  exact hall

theorem sum_eq_ofNat {values : List Json}
    (hnatural : ∀ value ∈ values, value.toNat?.isSome = true)
    (hbound : (values.map fun value => value.toNat?.getD 0).sum < 2 ^ 64) :
    sum values = .ofNat (values.map fun value => value.toNat?.getD 0).sum := by
  rw [sum, naturalSum?_eq, if_pos ⟨hnatural, hbound⟩]

/-! ## Integers -/

variable {numbers : List Int}

private theorem areNaturals_iff (hwords : ∀ n ∈ numbers, Json.IsWord n) :
    (∀ value ∈ numbers.map Json.ofInt, value.toNat?.isSome = true) ↔
    ∀ n ∈ numbers, 0 ≤ n := by
  rw [List.forall_mem_map]
  refine forall₂_congr fun n hn => ?_
  rw [Json.toNat?_ofInt (hwords n hn), Option.isSome_ite]

private theorem total_ofInt (hwords : ∀ n ∈ numbers, Json.IsWord n)
    (hnatural : ∀ n ∈ numbers, 0 ≤ n) :
    (((numbers.map Json.ofInt).map fun value =>
      value.toNat?.getD 0).sum : Nat) = numbers.sum := by
  induction numbers with
  | nil => rfl
  | cons n rest ih =>
      obtain ⟨hword, hrest⟩ := List.forall_mem_cons.1 hwords
      obtain ⟨hn, hothers⟩ := List.forall_mem_cons.1 hnatural
      simp only [List.map_cons, List.sum_cons, Json.toNat?_ofInt hword,
        if_pos hn, Option.getD_some]
      have := ih hrest hothers
      omega

private theorem sum_of_naturals (hwords : ∀ n ∈ numbers, Json.IsWord n)
    (hnatural : ∀ n ∈ numbers, 0 ≤ n) (htotal : numbers.sum < 2 ^ 64) :
    sum (numbers.map Json.ofInt) = .ofInt numbers.sum := by
  have hcast := total_ofInt hwords hnatural
  rw [sum_eq_ofNat ((areNaturals_iff hwords).2 hnatural) (by omega),
    Json.ofNat, hcast]

private theorem sum_of_others (hwords : ∀ n ∈ numbers, Json.IsWord n)
    (h : (∃ n ∈ numbers, n < 0) ∨ 2 ^ 64 ≤ numbers.sum) :
    sum (numbers.map Json.ofInt) =
      .ofBinary64 (floatSum (numbers.map Json.ofInt)) := by
  rw [sum, naturalSum?_eq, if_neg]
  rintro ⟨hvalues, hless⟩
  have hnatural := (areNaturals_iff hwords).1 hvalues
  have hcast := total_ofInt hwords hnatural
  rcases h with ⟨n, hn, hnegative⟩ | hlarge
  · exact absurd (hnatural n hn) (by omega)
  · omega

private theorem sum_le_of_mem_parts {parts : List (List Int)}
    (hnatural : ∀ n ∈ parts.flatten, 0 ≤ n) {part : List Int}
    (hpart : part ∈ parts) : part.sum ≤ parts.flatten.sum := by
  have hparts : ∀ total ∈ parts.map List.sum, 0 ≤ total := by
    intro total htotal
    obtain ⟨other, hother, rfl⟩ := List.mem_map.1 htotal
    exact List.sum_nonneg fun n hn =>
      hnatural n (List.mem_flatten_of_mem hother hn)
  rw [List.sum_flatten]
  exact List.single_le_sum hparts _ (List.mem_map_of_mem hpart)

private theorem sum_of_parts {parts : List (List Int)}
    (hwords : ∀ n ∈ parts.flatten, Json.IsWord n)
    (hnatural : ∀ n ∈ parts.flatten, 0 ≤ n)
    (htotal : parts.flatten.sum < 2 ^ 64) :
    sum (parts.map fun part => sum (part.map Json.ofInt)) =
      .ofInt parts.flatten.sum := by
  have hpart : ∀ part ∈ parts, 0 ≤ part.sum ∧ part.sum < 2 ^ 64 ∧
      sum (part.map Json.ofInt) = .ofInt part.sum := by
    intro part hpart
    have hmem : ∀ n ∈ part, n ∈ parts.flatten :=
      fun n hn => List.mem_flatten_of_mem hpart hn
    have hless := (sum_le_of_mem_parts hnatural hpart).trans_lt htotal
    exact ⟨List.sum_nonneg fun n hn => hnatural n (hmem n hn), hless,
      sum_of_naturals (fun n hn => hwords n (hmem n hn))
        (fun n hn => hnatural n (hmem n hn)) hless⟩
  have htotals : (parts.map fun part => sum (part.map Json.ofInt)) =
      (parts.map List.sum).map Json.ofInt := by
    rw [List.map_map]
    exact List.map_congr_left fun part h => (hpart part h).2.2
  have hwhole : ∀ total ∈ parts.map List.sum, 0 ≤ total ∧ total < 2 ^ 64 := by
    intro total hmem
    obtain ⟨part, h, rfl⟩ := List.mem_map.1 hmem
    exact ⟨(hpart part h).1, (hpart part h).2.1⟩
  rw [htotals, List.sum_flatten]
  refine sum_of_naturals (fun total h => ?_)
    (fun total h => (hwhole total h).1) ?_
  · have := hwhole total h
    exact ⟨by omega, by omega⟩
  · rwa [← List.sum_flatten]

/-- Integers in any order, of which none is negative, add up to their exact
total if 64 bits hold it, and so do the sums of any parts of them. All other
integers add up to a floating-point number. -/
theorem sum_integers (hwords : ∀ n ∈ numbers, Json.IsWord n) :
    ((∀ n ∈ numbers, 0 ≤ n) → numbers.sum < 2 ^ 64 →
      (∀ others : List Int, others.Perm numbers →
        (sum (others.map Json.ofInt)).integer? = some numbers.sum) ∧
      ∀ parts : List (List Int), parts.flatten.Perm numbers →
        (sum (parts.map fun part => sum (part.map Json.ofInt))).integer? =
          some numbers.sum) ∧
    ((∃ n ∈ numbers, n < 0) ∨ 2 ^ 64 ≤ numbers.sum →
      ∀ others : List Int, others.Perm numbers →
        sum (others.map Json.ofInt) =
          .ofBinary64 (floatSum (others.map Json.ofInt)) ∧
        (sum (others.map Json.ofInt)).integer? = none) := by
  constructor
  · intro hnatural htotal
    have hword : Json.IsWord numbers.sum := by
      have := List.sum_nonneg hnatural
      exact ⟨by omega, by omega⟩
    constructor
    · intro others hperm
      rw [sum_of_naturals (fun n hn => hwords n (hperm.mem_iff.1 hn))
        (fun n hn => hnatural n (hperm.mem_iff.1 hn)) (hperm.sum_eq ▸ htotal),
        hperm.sum_eq, Json.integer?_ofInt hword]
    · intro parts hperm
      rw [sum_of_parts (fun n hn => hwords n (hperm.mem_iff.1 hn))
        (fun n hn => hnatural n (hperm.mem_iff.1 hn)) (hperm.sum_eq ▸ htotal),
        hperm.sum_eq, Json.integer?_ofInt hword]
  · intro h others hperm
    have hfloat := @sum_of_others others
      (fun n hn => hwords n (hperm.mem_iff.1 hn)) <| by
      rw [hperm.sum_eq]
      exact h.imp_left fun ⟨n, hn, hnegative⟩ =>
        ⟨n, hperm.mem_iff.2 hn, hnegative⟩
    exact ⟨hfloat, by rw [hfloat, Json.integer?_ofBinary64]⟩

theorem sum_integers_largest :
    (∀ n ∈ [9223372036854775808, 5, 9223372036854775802], Json.IsWord n) ∧
    (sum ([5, 9223372036854775802,
      9223372036854775808].map Json.ofInt)).integer? =
      some 18446744073709551615 ∧
    (sum ([[9223372036854775802], [], [9223372036854775808, 5]].map fun part =>
      sum (part.map Json.ofInt))).integer? = some 18446744073709551615 ∧
    (∀ n ∈ [-1, 9007199254740994], Json.IsWord n) ∧
    [-1, 9007199254740994].sum = (9007199254740993 : Int) ∧
    sum ([-1, 9007199254740994].map Json.ofInt) =
      .ofBinary64 (.ofInt 9007199254740992) := by
  have hwords : ∀ n ∈ [9223372036854775808, 5, 9223372036854775802],
      Json.IsWord n := by decide
  have hwords' : ∀ n ∈ [-1, 9007199254740994], Json.IsWord n := by decide
  obtain ⟨horders, hparts⟩ := (sum_integers hwords).1 (by decide) (by decide)
  refine ⟨hwords, horders _ (by decide), hparts _ (by decide),
    hwords', by decide, ?_⟩
  rw [((sum_integers hwords').2 (.inl ⟨-1, by decide, by decide⟩) _
    (.refl _)).1]
  decide +kernel

end Builtin

end JobChain
