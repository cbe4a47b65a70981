import JobChain.Binary64
import Mathlib.Algebra.Group.Nat.Defs
import Mathlib.Data.Nat.Log

/-!
# Rounding of whole numbers

A whole number rounds to a magnitude that is made of its binary logarithm and of
a significand of 53 bits. Rounding keeps the order of whole numbers, though it
may take different ones to the same.
-/

namespace JobChain.Binary64

/-! ## Quotients -/

private theorem le_divNearest (num den : Nat) :
    num / den ≤ divNearest num den := by
  simp only [divNearest]
  split_ifs <;> omega

private theorem divNearest_le (num den : Nat) :
    divNearest num den ≤ num / den + 1 := by
  simp only [divNearest]
  split_ifs <;> omega

@[simp] theorem divNearest_one (num : Nat) : divNearest num 1 = num := by
  simp [divNearest, Nat.mod_one]

private theorem divNearest_mono {num num' : Nat} (den : Nat) (h : num ≤ num') :
    divNearest num den ≤ divNearest num' den := by
  rcases (Nat.div_le_div_right h : num / den ≤ num' / den).lt_or_eq
      with hlt | heq
  · have hupper := divNearest_le num den
    have hlower := le_divNearest num' den
    omega
  · have hmod : num % den ≤ num' % den := by
      have hnum := Nat.div_add_mod num den
      have hnum' := Nat.div_add_mod num' den
      rw [← heq] at hnum'
      omega
    simp only [divNearest, ← heq]
    split_ifs <;> omega

/-! ## Magnitudes of whole numbers -/

private theorem floorLog2_one (num : Nat)
    (h : num ≠ 0) : floorLog2 num 1 = num.log2 := by
  have hle := Nat.log2_self_le h
  have hlog : Nat.log2 1 = 0 := by decide
  have hestimate : ((num.log2 : Int) - (0 : Nat)).toNat = num.log2 := by omega
  simp only [floorLog2, hlog,
    if_pos (by omega : (0 : Int) ≤ (num.log2 : Int) - (0 : Nat)), hestimate,
    Nat.one_mul, Nat.pow_eq]
  rw [if_neg (by simpa using hle)]
  omega

/-- The leading 53 bits of a whole number, rounded. -/
def significand (num : Nat) : Nat :=
  if 52 ≤ num.log2 then divNearest num (2 ^ (num.log2 - 52)) else num * 2 ^
    (52 - num.log2)

theorem nearestMagnitude_one (num : Nat) (h : num ≠ 0) :
    nearestMagnitude num 1 =
      min ((num.log2 + 1022) * binade + significand num) infinite := by
  have hscale : max ((num.log2 : Int) - 52) (-1074) = (num.log2 : Int) -
      52 := by omega
  simp only [nearestMagnitude, if_neg h, floorLog2_one num h, hscale,
    significand, Nat.pow_eq]
  have hshift : ((num.log2 : Int) - 52 + 1074).toNat = num.log2 +
      1022 := by omega
  rw [hshift]
  by_cases hlarge : 52 ≤ num.log2
  · have hpower : ((num.log2 : Int) - 52).toNat = num.log2 - 52 := by omega
    rw [if_pos (by omega), if_pos hlarge, hpower, Nat.one_mul]
  · have hpower : (-((num.log2 : Int) - 52)).toNat = 52 - num.log2 := by omega
    rw [if_neg (by omega), if_neg hlarge, hpower, divNearest_one]

theorem significand_bounds (num : Nat) (h : num ≠ 0) :
    binade ≤ significand num ∧ significand num ≤ 2 * binade := by
  have hbinade : binade = 2 ^ 52 := by decide
  have hle := Nat.log2_self_le h
  have hlt : num < 2 ^ (num.log2 + 1) := Nat.lt_log2_self
  unfold significand
  split_ifs with hlarge
  · obtain ⟨shift, hshift⟩ := Nat.exists_eq_add_of_le hlarge
    have hcancel : num.log2 - 52 = shift := by omega
    rw [hcancel]
    have hpos : 0 < 2 ^ shift := Nat.pow_pos (by decide)
    have hlow : 2 ^ 52 * 2 ^ shift ≤ num := by rwa [← Nat.pow_add, ← hshift]
    have hhigh : num < 2 ^ 53 * 2 ^ shift := by
      rw [← Nat.pow_add]
      convert hlt using 2
      omega
    have hquotient := (Nat.le_div_iff_mul_le hpos).2 hlow
    have hquotient' := (Nat.div_lt_iff_lt_mul hpos).2 hhigh
    have hlower := le_divNearest num (2 ^ shift)
    have hupper := divNearest_le num (2 ^ shift)
    omega
  · obtain ⟨shift, hshift⟩ := Nat.exists_eq_add_of_le (Nat.le_of_not_le hlarge)
    have hcancel : 52 - num.log2 = shift := by omega
    rw [hcancel]
    have hlow : 2 ^ num.log2 * 2 ^ shift ≤ num * 2 ^ shift :=
      Nat.mul_le_mul_right _ hle
    have hhigh : num * 2 ^ shift ≤ 2 ^ (num.log2 + 1) * 2 ^ shift :=
      Nat.mul_le_mul_right _ (Nat.le_of_lt hlt)
    rw [← Nat.pow_add] at hlow hhigh
    have hexponent : num.log2 + shift = 52 := by omega
    have hexponent' : num.log2 + 1 + shift = 53 := by omega
    rw [hexponent] at hlow
    rw [hexponent'] at hhigh
    omega

private theorem nearestMagnitude_mono {num num' : Nat} (h : num ≤ num') :
    nearestMagnitude num 1 ≤ nearestMagnitude num' 1 := by
  by_cases hzero : num = 0
  · simp [nearestMagnitude, hzero]
  have hzero' : num' ≠ 0 := by omega
  rw [nearestMagnitude_one num hzero, nearestMagnitude_one num' hzero']
  refine Nat.le_min.2 ⟨Nat.le_trans (Nat.min_le_left ..) ?_,
    Nat.min_le_right ..⟩
  have hlog : num.log2 ≤ num'.log2 := by
    rw [Nat.log2_eq_log_two, Nat.log2_eq_log_two]
    exact Nat.log_mono_right h
  rcases hlog.lt_or_eq with hlt | heq
  · have hupper := (significand_bounds num hzero).2
    have hlower := (significand_bounds num' hzero').1
    have hstep : (num.log2 + 1022 + 1) * binade ≤ (num'.log2 + 1022) * binade :=
      Nat.mul_le_mul_right _ (by omega)
    rw [Nat.add_mul] at hstep
    omega
  · rw [heq]
    refine Nat.add_le_add_left ?_ _
    unfold significand
    rw [heq]
    split_ifs
    · exact divNearest_mono _ h
    · exact Nat.mul_le_mul_right _ h

/-! ## Order -/

theorem rank_injective {x y : Binary64} (h : x.rank = y.rank) : x = y := by
  obtain ⟨negative, magnitude, hlt⟩ := x
  obtain ⟨negative', magnitude', hlt'⟩ := y
  have hmagnitude : negative = negative' ∧ magnitude = magnitude' := by
    cases negative <;> cases negative' <;> simp [rank] at h ⊢ <;> omega
  obtain ⟨rfl, rfl⟩ := hmagnitude
  rfl

theorem magnitude_ofInt (n : Int) :
    (ofInt n).magnitude = nearestMagnitude n.natAbs 1 := by
  have hlt : nearestMagnitude n.natAbs 1 < 0x8000000000000000 := by
    unfold nearestMagnitude
    split_ifs
    · decide
    · exact Nat.lt_of_le_of_lt (Nat.min_le_right ..) (by decide)
  simp only [ofInt, ofQuotient, ofMagnitude, dif_pos hlt]

theorem negative_ofInt (n : Int) : (ofInt n).negative = decide (n < 0) := by
  unfold ofInt ofQuotient ofMagnitude
  split_ifs <;> rfl

theorem rank_ofInt_mono {m n : Int} (h : m ≤ n) :
    (ofInt m).rank ≤ (ofInt n).rank := by
  simp only [rank, negative_ofInt, magnitude_ofInt, decide_eq_true_eq]
  split_ifs with hm hn hn
  · have habs := nearestMagnitude_mono (by omega : n.natAbs ≤ m.natAbs)
    omega
  · omega
  · omega
  · have habs := nearestMagnitude_mono (by omega : m.natAbs ≤ n.natAbs)
    omega

end JobChain.Binary64
