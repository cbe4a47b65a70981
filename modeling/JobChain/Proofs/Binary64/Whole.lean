import JobChain.Proofs.Binary64.Rounding
import Mathlib.Data.Nat.Digits.Defs

/-!
# Whole numbers that are exact

A whole number of at most 53 bits is a floating-point number, and is found again
in it.
-/

namespace JobChain.Binary64

def exactBound : Nat := 0x20000000000000

theorem log2_le_of_lt {num : Nat} (h : num ≠ 0)
    (hlt : num < exactBound) : num.log2 ≤ 52 := by
  have hbits : num.log2 < 53 := (Nat.log2_lt h).2 hlt
  omega

/-- The significand of a whole number of at most 53 bits is the number shifted
to the left. -/
theorem significand_of_log2_le {num : Nat} (hlog : num.log2 ≤ 52) :
    significand num = num * 2 ^ (52 - num.log2) := by
  unfold significand
  split_ifs with hlarge
  · have hexact : num.log2 = 52 := by omega
    rw [hexact, Nat.sub_self, Nat.pow_zero, divNearest_one, Nat.mul_one]
  · rfl

section

variable {n : Int} (hzero : n ≠ 0) (hlt : n.natAbs < exactBound)

include hzero hlt

private theorem magnitude_ofInt_of_lt : (ofInt n).magnitude =
    (n.natAbs.log2 + 1023) * binade + (significand n.natAbs - binade) ∧
      significand n.natAbs < 2 * binade := by
  have hne : n.natAbs ≠ 0 := Int.natAbs_ne_zero.2 hzero
  have hlog := log2_le_of_lt hne hlt
  have hlow := (significand_bounds n.natAbs hne).1
  have hhigh : significand n.natAbs < 2 * binade := by
    have hbinade : 2 * binade = 2 ^ (n.natAbs.log2 + 1) * 2 ^
        (52 - n.natAbs.log2) := by
      rw [← Nat.pow_add, show n.natAbs.log2 + 1 + (52 - n.natAbs.log2) =
        53 by omega]
      decide
    rw [significand_of_log2_le hlog, hbinade]
    exact Nat.mul_lt_mul_of_pos_right Nat.lt_log2_self (Nat.pow_pos (by decide))
  have hsum : (n.natAbs.log2 + 1022) * binade + significand n.natAbs =
      (n.natAbs.log2 + 1023) * binade + (significand n.natAbs - binade) := by
    have hsplit : (n.natAbs.log2 + 1023) * binade = (n.natAbs.log2 + 1022) *
        binade + binade :=
      Nat.succ_mul _ _
    omega
  have hfinite : (n.natAbs.log2 + 1023) * binade + binade ≤ infinite := by
    have hstep : (n.natAbs.log2 + 1023 + 1) * binade ≤ 2047 * binade :=
      Nat.mul_le_mul_right _ (by omega)
    rwa [Nat.add_mul _ 1, Nat.one_mul] at hstep
  rw [magnitude_ofInt, nearestMagnitude_one _ hne, hsum]
  omega

private theorem mantissa_ofInt_of_lt :
    (ofInt n).mantissa = significand n.natAbs := by
  obtain ⟨hmagnitude, hhigh⟩ := magnitude_ofInt_of_lt hzero hlt
  have hlow := (significand_bounds n.natAbs (Int.natAbs_ne_zero.2 hzero)).1
  have hlarge : ¬ (ofInt n).magnitude < binade := by
    rw [hmagnitude, Nat.add_mul]
    omega
  rw [mantissa, if_neg hlarge, hmagnitude,
    Nat.add_comm _ (significand n.natAbs - binade), Nat.add_mul_mod_self_right,
    Nat.mod_eq_of_lt (by omega)]
  omega

private theorem scale_ofInt_of_lt :
    (ofInt n).scale = (n.natAbs.log2 : Int) - 52 := by
  obtain ⟨hmagnitude, hhigh⟩ := magnitude_ofInt_of_lt hzero hlt
  have hlow := (significand_bounds n.natAbs (Int.natAbs_ne_zero.2 hzero)).1
  have hquotient : (ofInt n).magnitude / binade = n.natAbs.log2 + 1023 := by
    rw [hmagnitude, Nat.add_comm, Nat.add_mul_div_right _ _ (by decide),
      Nat.div_eq_of_lt (by omega), Nat.zero_add]
  rw [scale, hquotient]
  omega

private theorem isFinite_ofInt_of_lt : (ofInt n).isFinite = true := by
  obtain ⟨hmagnitude, hhigh⟩ := magnitude_ofInt_of_lt hzero hlt
  have hlog := log2_le_of_lt (Int.natAbs_ne_zero.2 hzero) hlt
  have hstep : (n.natAbs.log2 + 1023 + 1) * binade ≤ 2047 * binade :=
    Nat.mul_le_mul_right _ (by omega)
  rw [Nat.add_mul _ 1, Nat.one_mul] at hstep
  rw [isFinite, decide_eq_true_eq, hmagnitude, infinite]
  omega

end

private theorem signed_natAbs (n : Int) :
    signed (decide (n < 0)) n.natAbs = n := by
  unfold signed
  split_ifs with h
  · rw [decide_eq_true_eq] at h
    omega
  · rw [decide_eq_true_eq] at h
    omega

theorem toInt?_ofInt {n : Int}
    (h : n.natAbs ≤ exactBound) : (ofInt n).toInt? = some n := by
  by_cases hzero : n = 0
  · subst hzero
    decide +kernel
  rcases h.lt_or_eq with hlt | heq
  · have hlog := log2_le_of_lt (Int.natAbs_ne_zero.2 hzero) hlt
    have hshift : (-((n.natAbs.log2 : Int) - 52)).toNat = 52 -
        n.natAbs.log2 := by omega
    simp only [toInt?, isFinite_ofInt_of_lt hzero hlt,
      scale_ofInt_of_lt hzero hlt, mantissa_ofInt_of_lt hzero hlt,
      negative_ofInt, significand_of_log2_le hlog, Nat.pow_eq,
      hshift, Nat.mul_mod_left,
      Nat.mul_div_cancel _ (Nat.pow_pos (by decide : 0 < 2)), if_true]
    split_ifs with hscale
    · rw [show n.natAbs.log2 = 52 by omega]
      simpa using signed_natAbs n
    · rw [signed_natAbs]
  · obtain rfl | rfl : n = exactBound ∨ n = -exactBound := by omega
    · decide +kernel
    · decide +kernel

theorem ofDecimal_natAbs {n : Int} (h : n.natAbs ≤ 2 ^ 64) :
    ofDecimal (decide (n < 0)) n.natAbs 0 = ofInt n := by
  have hcount : (Text.digitCount n.natAbs : Int) ≤ 400 := by
    have hsmall : n.natAbs < 10 ^ 20 := Nat.lt_of_le_of_lt h (by decide)
    have hdigits : (Text.natChars n.natAbs).length ≤ 20 :=
      Nat.toDigits_length 10 n.natAbs 20 (by decide) hsmall
    unfold Text.digitCount
    split_ifs <;> omega
  by_cases hzero : n = 0
  · subst hzero
    decide +kernel
  · have hne : n.natAbs ≠ 0 := Int.natAbs_ne_zero.2 hzero
    rw [ofDecimal, if_neg (by omega), if_neg (by omega), if_pos (by omega)]
    simp [ofInt]

end JobChain.Binary64
