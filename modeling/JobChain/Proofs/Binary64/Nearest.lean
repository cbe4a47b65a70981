import JobChain.Proofs.Binary64.Whole
import Mathlib.Tactic.Ring

/-!
# Whole numbers as they are rounded

The number nearest to a whole number of 64 bits is whole again: its leading 53
bits, rounded, with zeros behind them. Numbers are told apart by it, and
ordered, as these whole numbers are.
-/

namespace JobChain.Binary64

/-! ## Natural numbers -/

private theorem divNearest_mul (num : Nat) {den : Nat} (h : 0 < den) :
    divNearest (num * den) den = num := by
  simp only [divNearest, Nat.mul_mod_left, Nat.mul_div_cancel _ h]
  exact if_neg (by omega)

/-- The natural number nearest to another one, of those with zeros behind the
leading 53 bits. -/
def nearest (num : Nat) : Nat :=
  divNearest num (2 ^ (num.log2 - 52)) * 2 ^ (num.log2 - 52)

variable {num : Nat}

private theorem nearest_of_log2_le (h : num.log2 ≤ 52) : nearest num = num := by
  rw [nearest, Nat.sub_eq_zero_of_le h, Nat.pow_zero, divNearest_one,
    Nat.mul_one]

private theorem nearest_of_le_log2 (h : 52 ≤ num.log2) :
    nearest num = significand num * 2 ^ (num.log2 - 52) := by
  rw [nearest, significand, if_pos h]

private theorem nearest_eq_self_iff :
    nearest num = num ↔ 2 ^ (num.log2 - 52) ∣ num := by
  constructor
  · intro h
    exact ⟨_, by rw [Nat.mul_comm]; exact h.symm⟩
  · rintro ⟨quotient, hquotient⟩
    have hpos : 0 < 2 ^ (num.log2 - 52) := Nat.pow_pos (by decide)
    have hexact := divNearest_mul quotient hpos
    rw [Nat.mul_comm, ← hquotient] at hexact
    rw [nearest, hexact, Nat.mul_comm, ← hquotient]

private theorem pow_log2_le_nearest
    (h : num ≠ 0) : 2 ^ num.log2 ≤ nearest num := by
  rcases Nat.le_total num.log2 52 with hsmall | hlarge
  · rw [nearest_of_log2_le hsmall]
    exact Nat.log2_self_le h
  · have hpower : 2 ^ num.log2 = binade * 2 ^ (num.log2 - 52) := by
      rw [show binade = 2 ^ 52 by decide, ← Nat.pow_add]
      congr 1
      omega
    rw [nearest_of_le_log2 hlarge, hpower]
    exact Nat.mul_le_mul_right _ (significand_bounds num h).1

/-! ## Magnitudes -/

section

variable {bits shift : Nat}

/-- The next power of two behind 53 bits is one more zero behind the first of
them. -/
theorem eq_double_of_not_lt (hhigh : bits ≤ 2 * binade)
    (h : ¬bits < 2 * binade) : bits * 2 ^ shift = binade * 2 ^ (shift + 1) ∧
      (shift + 1074) * binade + bits = (shift + 1 + 1074) * binade +
      binade := by
  obtain rfl : bits = 2 * binade := by omega
  constructor <;> ring

private theorem nearestMagnitude_of_lt (hlow : binade ≤ bits)
    (hhigh : bits < 2 * binade) :
    nearestMagnitude (bits * 2 ^ shift) 1 =
      min ((shift + 1074) * binade + bits) infinite := by
  have hpos : 0 < 2 ^ shift := Nat.pow_pos (by decide)
  have hbinade : 0 < binade := by decide
  have hne : bits * 2 ^ shift ≠ 0 := Nat.mul_ne_zero (by omega) hpos.ne'
  have hlog : (bits * 2 ^ shift).log2 = shift + 52 := by
    rw [Nat.log2_eq_iff hne, Nat.add_comm shift, Nat.add_right_comm,
      Nat.pow_add, Nat.pow_add 2 53]
    exact ⟨Nat.mul_le_mul_right _ hlow, Nat.mul_lt_mul_of_pos_right hhigh hpos⟩
  have hbits : significand (bits * 2 ^ shift) = bits := by
    rw [significand, hlog, if_pos (by omega), Nat.add_sub_cancel,
      divNearest_mul _ hpos]
  rw [nearestMagnitude_one _ hne, hlog, hbits]

private theorem nearestMagnitude_shifted (hlow : binade ≤ bits)
    (hhigh : bits ≤ 2 * binade) :
    nearestMagnitude (bits * 2 ^ shift) 1 =
      min ((shift + 1074) * binade + bits) infinite := by
  have hbinade : 0 < binade := by decide
  by_cases hlt : bits < 2 * binade
  · exact nearestMagnitude_of_lt hlow hlt
  · obtain ⟨hnumber, hmagnitude⟩ := @eq_double_of_not_lt _ shift hhigh hlt
    rw [hnumber, hmagnitude]
    exact nearestMagnitude_of_lt (Nat.le_refl _) (by omega)

private theorem toInt?_of_lt {x : Binary64} (hlow : binade ≤ bits)
    (hhigh : bits < 2 * binade) (hshift : shift ≤ 901)
    (hx : x.magnitude = (shift + 1074) * binade + bits) :
    x.toInt? = some (signed x.negative (bits * 2 ^ shift)) := by
  obtain ⟨fraction, rfl⟩ := Nat.exists_eq_add_of_le hlow
  have hfraction : fraction < binade := by omega
  have hsplit : x.magnitude = fraction + (shift + 1075) * binade := by
    rw [hx]
    ring
  have hfinite : x.isFinite = true := by
    have hstep : (shift + 1075 + 1) * binade ≤ 2047 * binade :=
      Nat.mul_le_mul_right _ (by omega)
    rw [Nat.add_mul _ 1, Nat.one_mul] at hstep
    rw [isFinite, decide_eq_true_eq, hsplit, infinite]
    omega
  have hscale : x.scale = shift := by
    rw [scale, hsplit, Nat.add_mul_div_right _ _ (by decide),
      Nat.div_eq_of_lt hfraction]
    omega
  have hmantissa : x.mantissa = binade + fraction := by
    have hlarge : binade ≤ (shift + 1075) * binade :=
      Nat.le_mul_of_pos_left _ (by omega)
    rw [mantissa, hsplit, if_neg (by omega), Nat.add_mul_mod_self_right,
      Nat.mod_eq_of_lt hfraction]
  simp [toInt?, hfinite, hscale, hmantissa]

private theorem toInt?_of_magnitude {x : Binary64} (hlow : binade ≤ bits)
    (hhigh : bits ≤ 2 * binade) (hshift : shift ≤ 900)
    (hx : x.magnitude = (shift + 1074) * binade + bits) :
    x.toInt? = some (signed x.negative (bits * 2 ^ shift)) := by
  have hbinade : 0 < binade := by decide
  by_cases hlt : bits < 2 * binade
  · exact toInt?_of_lt hlow hlt (by omega) hx
  · obtain ⟨hnumber, hmagnitude⟩ := @eq_double_of_not_lt _ shift hhigh hlt
    rw [hnumber]
    exact toInt?_of_lt (Nat.le_refl _) (by omega)
      (by omega) (hx.trans hmagnitude)

end

private theorem nearestMagnitude_nearest (h : num ≠ 0) :
    nearestMagnitude (nearest num) 1 = nearestMagnitude num 1 := by
  rcases Nat.le_total num.log2 52 with hsmall | hlarge
  · rw [nearest_of_log2_le hsmall]
  · obtain ⟨hlow, hhigh⟩ := significand_bounds num h
    rw [nearest_of_le_log2 hlarge, nearestMagnitude_shifted hlow hhigh,
      nearestMagnitude_one num h, show num.log2 - 52 + 1074 = num.log2 +
      1022 by omega]

/-! ## Integers -/

def rounded (n : Int) : Int := signed (decide (n < 0)) (nearest n.natAbs)

variable {m n : Int}

private theorem natAbs_rounded (n : Int) :
    (rounded n).natAbs = nearest n.natAbs := by
  unfold rounded signed
  split <;> omega

private theorem rounded_neg_iff : rounded n < 0 ↔ n < 0 := by
  by_cases hneg : n < 0
  · have hnearest := pow_log2_le_nearest (by omega : n.natAbs ≠ 0)
    have hpos : 0 < 2 ^ n.natAbs.log2 := Nat.pow_pos (by decide)
    simp only [rounded, signed, hneg, decide_true, if_true, iff_true]
    omega
  · simp only [rounded, signed, hneg, decide_false, Bool.false_eq_true,
      if_false, iff_false]
    omega

theorem rounded_eq_self_iff :
    rounded n = n ↔ 2 ^ (n.natAbs.log2 - 52) ∣ n.natAbs := by
  rw [← nearest_eq_self_iff, ← natAbs_rounded]
  have hsign := @rounded_neg_iff n
  omega

/-- Only the number itself rounds to a whole number below the largest exact
one. -/
theorem rounded_eq_iff_of_lt (h : n.natAbs < exactBound) : rounded m = n ↔
    m = n := by
  have hself : ∀ k : Int, k.natAbs.log2 ≤ 52 → rounded k = k := by
    intro k hlog
    rw [rounded_eq_self_iff, Nat.sub_eq_zero_of_le hlog, Nat.pow_zero]
    exact Nat.one_dvd _
  have hlog : ∀ k : Int, (rounded k).natAbs < exactBound →
      k.natAbs.log2 ≤ 52 := by
    intro k hk
    by_cases hzero : k = 0
    · subst hzero
      decide
    · have hle := pow_log2_le_nearest (Int.natAbs_ne_zero.2 hzero)
      rw [← natAbs_rounded] at hle
      have hlt : 2 ^ k.natAbs.log2 < 2 ^ 53 := lt_of_le_of_lt hle hk
      have := (Nat.pow_lt_pow_iff_right (by decide : 1 < 2)).1 hlt
      omega
  constructor
  · rintro rfl
    exact (hself m (hlog m h)).symm
  · rintro rfl
    by_cases hzero : m = 0
    · subst hzero
      decide
    · exact hself m (log2_le_of_lt (Int.natAbs_ne_zero.2 hzero) h)

theorem ofInt_rounded (n : Int) : ofInt (rounded n) = ofInt n := by
  by_cases hzero : n = 0
  · subst hzero
    rfl
  · apply rank_injective
    simp only [rank, negative_ofInt, magnitude_ofInt, natAbs_rounded,
      rounded_neg_iff, nearestMagnitude_nearest (Int.natAbs_ne_zero.2 hzero)]

theorem pow_le_rounded {k : Nat} (h : ((2 ^ k : Nat) : Int) ≤ m) :
    ((2 ^ k : Nat) : Int) ≤ rounded m := by
  have hpos : 0 < 2 ^ k := Nat.pow_pos (by decide)
  have hne : m.natAbs ≠ 0 := by omega
  have hlog : k ≤ m.natAbs.log2 := (Nat.le_log2 hne).2 (by omega)
  have hle :=
    (Nat.pow_le_pow_right (by decide) hlog).trans (pow_log2_le_nearest hne)
  have hsign := @rounded_neg_iff m
  rw [← natAbs_rounded] at hle
  omega

theorem toInt?_ofInt_eq (h : n.natAbs ≤ 2 ^ 64) :
    (ofInt n).toInt? = some (rounded n) := by
  by_cases hsmall : n.natAbs < exactBound
  · rw [toInt?_ofInt hsmall.le, (rounded_eq_iff_of_lt hsmall).2 rfl]
  · have hne : n.natAbs ≠ 0 := by
      rintro hzero
      rw [hzero] at hsmall
      exact hsmall (by decide)
    have hlog : 53 ≤ n.natAbs.log2 :=
      (Nat.le_log2 hne).2 (Nat.le_of_not_lt hsmall)
    have hlog' : n.natAbs.log2 < 65 := (Nat.log2_lt hne).2 (by omega)
    obtain ⟨hlow, hhigh⟩ := significand_bounds _ hne
    have hmagnitude : (ofInt n).magnitude =
        (n.natAbs.log2 - 52 + 1074) * binade + significand n.natAbs := by
      have hstep : (n.natAbs.log2 + 1022 + 2) * binade ≤ 2047 * binade :=
        Nat.mul_le_mul_right _ (by omega)
      rw [Nat.add_mul _ 2] at hstep
      rw [magnitude_ofInt, nearestMagnitude_one _ hne, infinite,
        show n.natAbs.log2 - 52 + 1074 = n.natAbs.log2 + 1022 by omega]
      omega
    rw [toInt?_of_magnitude hlow hhigh (by omega) hmagnitude, negative_ofInt,
      rounded, nearest_of_le_log2 (by omega)]

theorem isFinite_ofInt (h : n.natAbs ≤ 2 ^ 64) : (ofInt n).isFinite = true := by
  have hwhole := toInt?_ofInt_eq h
  by_contra hinfinite
  simp [toInt?, hinfinite] at hwhole

section

variable (hm : m.natAbs ≤ 2 ^ 64) (hn : n.natAbs ≤ 2 ^ 64)

include hm hn

theorem ofInt_eq_ofInt_iff : ofInt m = ofInt n ↔ rounded m = rounded n := by
  constructor
  · intro h
    have hsame := congrArg toInt? h
    rw [toInt?_ofInt_eq hm, toInt?_ofInt_eq hn] at hsame
    exact Option.some.inj hsame
  · intro h
    rw [← ofInt_rounded m, h, ofInt_rounded]

private theorem rank_ofInt_lt (h : rounded m < rounded n) :
    (ofInt m).rank < (ofInt n).rank := by
  have hle := rank_ofInt_mono h.le
  rw [ofInt_rounded, ofInt_rounded] at hle
  refine lt_of_le_of_ne hle fun heq => h.ne ?_
  exact (ofInt_eq_ofInt_iff hm hn).1 (rank_injective heq)

theorem compare_rank_ofInt :
    compare (ofInt m).rank (ofInt n).rank =
      compare (rounded m) (rounded n) := by
  rcases lt_trichotomy (rounded m) (rounded n) with hlt | heq | hgt
  · rw [compare_lt_iff_lt.2 hlt, compare_lt_iff_lt.2 (rank_ofInt_lt hm hn hlt)]
  · rw [(ofInt_eq_ofInt_iff hm hn).2 heq, heq, compare_eq_iff_eq.2 rfl,
      compare_eq_iff_eq.2 rfl]
  · rw [compare_gt_iff_gt.2 hgt, compare_gt_iff_gt.2 (rank_ofInt_lt hn hm hgt)]

end

end JobChain.Binary64
