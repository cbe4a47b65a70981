import JobChain.Formula
import JobChain.Proofs.Json.Order

/-!
# Comparisons that agree with one another

Equality of numbers goes by what they round to and their order by more than
that, so that a comparison may call two numbers equal and another put one before
the other. That happens to different integers that round to the same number and
to zeros of different signs, and to nothing else.
-/

namespace JobChain

/-! ## Equality of numbers -/

namespace Binary64

theorem eqNumber_iff {x y : Binary64} (hx : x.isNaN = false) :
    x.eqNumber y = true ↔ x = y ∨ (x.isZero = true ∧ y.isZero = true) := by
  simp [eqNumber, hx]

private theorem isNaN_of_isZero {x : Binary64}
    (h : x.isZero = true) : x.isNaN = false := by
  rw [isZero, decide_eq_true_eq] at h
  rw [isNaN, h]
  rfl

private theorem eqNumber_comm
    (x y : Binary64) : x.eqNumber y = y.eqNumber x := by
  have hone : ∀ {x y : Binary64}, x.eqNumber y = true →
      y.eqNumber x = true := by
    intro x y h
    have hx : x.isNaN = false := by
      simp only [eqNumber, Bool.and_eq_true, Bool.not_eq_true'] at h
      exact h.1
    rcases (eqNumber_iff hx).1 h with rfl | ⟨hzero, hzero'⟩
    · exact h
    · exact (eqNumber_iff (isNaN_of_isZero hzero')).2 (.inr ⟨hzero', hzero⟩)
  exact Bool.eq_iff_iff.2 ⟨hone, hone⟩

private theorem eq_iff_of_isZero {x y : Binary64} (hx : x.isZero = true)
    (hy : y.isZero = true) : x = y ↔ x.negative = y.negative := by
  refine ⟨fun h => h ▸ rfl, fun h => ?_⟩
  rw [isZero, decide_eq_true_eq] at hx hy
  cases x
  cases y
  simp_all

theorem isNaN_ofInt (n : Int) : (ofInt n).isNaN = false := by
  have hle : nearestMagnitude n.natAbs 1 ≤ infinite := by
    unfold nearestMagnitude
    split_ifs
    · exact Nat.zero_le _
    · exact Nat.min_le_right ..
  rw [isNaN, magnitude_ofInt, decide_eq_false_iff_not]
  omega

theorem isZero_ofInt {n : Int} : (ofInt n).isZero = true ↔ n = 0 := by
  rw [isZero, magnitude_ofInt, decide_eq_true_eq]
  by_cases hzero : n = 0
  · simp [hzero, nearestMagnitude]
  · have hne : n.natAbs ≠ 0 := Int.natAbs_ne_zero.2 hzero
    have hlow := (significand_bounds _ hne).1
    have hbinade : 0 < binade := by decide
    have hinfinite : 0 < infinite := by decide
    rw [nearestMagnitude_one _ hne]
    omega

end Binary64

namespace Number

private theorem isNaN_toBinary64 (x : Number) : x.toBinary64.isNaN = false := by
  cases x with
  | int n _ => exact Binary64.isNaN_ofInt n
  | float x hfinite =>
      rw [Binary64.isFinite, decide_eq_true_eq] at hfinite
      rw [toBinary64, Binary64.isNaN, decide_eq_false_iff_not]
      omega

/-- Numbers that are equal although the order puts one before the other:
different signed integers that round to the same number, or zeros of different
signs. -/
def conflicts (x y : Number) : Bool :=
  match x.toSigned?, y.toSigned? with
  | some m, some n => m ≠ n && Binary64.ofInt m = Binary64.ofInt n
  | _, _ =>
      x.toBinary64.isZero && y.toBinary64.isZero && x.toBinary64.negative !=
        y.toBinary64.negative

private theorem eqNumber_of_order_eq {x y : Number} (h : x.order y = .eq) :
    x.toBinary64.eqNumber y.toBinary64 = true :=
  (Binary64.eqNumber_iff x.isNaN_toBinary64).2
    (.inl (toBinary64_eq_of_order_eq h))

private theorem conflicts_of_signed {x y : Number} {m n : Int}
    (hx : x.toSigned? = some m) (hy : y.toSigned? = some n) :
    x.conflicts y = true ↔ x.toBinary64.eqNumber y.toBinary64 = true ∧
    x.order y ≠ .eq := by
  rw [Binary64.eqNumber_iff x.isNaN_toBinary64, order_of_signed hx hy,
    toBinary64_of_toSigned? hx, toBinary64_of_toSigned? hy,
    Binary64.isZero_ofInt, Binary64.isZero_ofInt]
  simp only [conflicts, hx, hy, Bool.and_eq_true, decide_eq_true_eq, ne_eq,
    Int.compare_eq_eq]
  constructor
  · rintro ⟨hne, hround⟩
    exact ⟨.inl hround, hne⟩
  · rintro ⟨hround | ⟨rfl, rfl⟩, hne⟩
    · exact ⟨hne, hround⟩
    · exact absurd rfl hne

private theorem conflicts_of_unsigned {x y : Number}
    (h : x.toSigned? = none ∨ y.toSigned? = none) : x.conflicts y = true ↔
    x.toBinary64.eqNumber y.toBinary64 = true ∧ x.order y ≠ .eq := by
  have hconflicts :
      x.conflicts y = (x.toBinary64.isZero && y.toBinary64.isZero &&
      x.toBinary64.negative != y.toBinary64.negative) := by
    unfold conflicts
    split
    · rename_i hx hy
      simp [hx, hy] at h
    · rfl
  have horder : x.order y = .eq ↔ x.toBinary64 = y.toBinary64 := by
    refine ⟨toBinary64_eq_of_order_eq, fun heq => ?_⟩
    rw [order_of_unsigned h, heq]
    exact Std.ReflCmp.compare_self
  rw [hconflicts, Binary64.eqNumber_iff x.isNaN_toBinary64, ne_eq, horder]
  simp only [Bool.and_eq_true, bne_iff_ne, ne_eq]
  constructor
  · rintro ⟨⟨hx, hy⟩, hsign⟩
    exact ⟨.inr ⟨hx, hy⟩,
      fun heq => hsign ((Binary64.eq_iff_of_isZero hx hy).1 heq)⟩
  · rintro ⟨heq | ⟨hx, hy⟩, hne⟩
    · exact absurd heq hne
    · exact ⟨⟨hx, hy⟩,
        fun hsign => hne ((Binary64.eq_iff_of_isZero hx hy).2 hsign)⟩

private theorem conflicts_iff {x y : Number} :
    x.conflicts y = true ↔ x.toBinary64.eqNumber y.toBinary64 = true ∧
    x.order y ≠ .eq := by
  cases hx : x.toSigned? with
  | none => exact conflicts_of_unsigned (.inl hx)
  | some m =>
      cases hy : y.toSigned? with
      | none => exact conflicts_of_unsigned (.inr hy)
      | some n => exact conflicts_of_signed hx hy

private theorem same_comm (x y : Number) : x.same y = y.same x := by
  cases x <;> cases y <;> simp [same, eq_comm, Binary64.eqNumber_comm]

end Number

/-! ## Equality of values -/

namespace Json

private theorem sameItems_comm {xs : List Json}
    (hitems : ∀ x ∈ xs, ∀ y, same x y = same y x) (ys : List Json) :
    sameItems xs ys = sameItems ys xs := by
  induction xs generalizing ys with
  | nil => cases ys <;> rfl
  | cons x xs ih =>
      obtain ⟨hx, hxs⟩ := List.forall_mem_cons.1 hitems
      cases ys with
      | nil => rfl
      | cons y ys => rw [sameItems, sameItems, hx y, ih hxs ys]

private theorem sameFields_comm {xs : List (String × Json)}
    (hfields : ∀ x ∈ xs, ∀ y, same x.2 y = same y x.2)
    (ys : List (String × Json)) : sameFields xs ys = sameFields ys xs := by
  induction xs generalizing ys with
  | nil => cases ys <;> rfl
  | cons x xs ih =>
      obtain ⟨hx, hxs⟩ := List.forall_mem_cons.1 hfields
      cases ys with
      | nil => rfl
      | cons y ys =>
          simp only [sameFields, hx y.2, ih hxs ys, eq_comm (a := x.1)]

private theorem same_comm (x y : Json) : x.same y = y.same x := by
  induction x using induct generalizing y with
  | null => cases y <;> rfl
  | bool x | string x => cases y <;> simp [same, eq_comm]
  | number x =>
      cases y with
      | number y => exact x.same_comm y
      | _ => rfl
  | array xs ih =>
      cases y with
      | array ys => exact sameItems_comm ih ys
      | _ => rfl
  | object xs ih =>
      cases y with
      | object ys => exact sameFields_comm ih ys
      | _ => rfl

end Json

/-! ## Comparisons -/

namespace Comparison

private theorem equal_comm (x y : Json) : equal x y = equal y x := by
  cases x with
  | number x =>
      cases y with
      | number y => exact Binary64.eqNumber_comm _ _
      | _ => rfl
  | _ => cases y <;> exact Json.same_comm _ _

private theorem comparable_comm (x y : Json) :
    comparable x y = comparable y x := by
  cases x <;> cases y <;> rfl

/-- Two values are before, equal to or after one another, only one of these, and
what is not after another is before it or equal to it. -/
structure Coherent (x y : Json) : Prop where
  trichotomy : ∃! comparison, comparison ∈ [.lt, .eq, .gt] ∧
      holds comparison x y = true
  le_iff : le.holds x y = true ↔ lt.holds x y = true ∨ eq.holds x y = true
  ge_iff : ge.holds x y = true ↔ gt.holds x y = true ∨ eq.holds x y = true

private theorem coherent_iff {x y : Json} (h : comparable x y = true) :
    Coherent x y ↔ (equal x y = true ↔ x.order y = .eq) := by
  constructor
  · rintro ⟨⟨comparison, ⟨hmem, hholds⟩, hunique⟩, -, -⟩
    constructor
    · intro hequal
      have heq := hunique .eq ⟨by simp, hequal⟩
      cases horder : x.order y with
      | eq => rfl
      | lt =>
          simpa [← heq] using hunique .lt ⟨by simp, by simp [holds, h, horder]⟩
      | gt =>
          simpa [← heq] using hunique .gt ⟨by simp, by simp [holds, h, horder]⟩
    · intro horder
      simp only [List.mem_cons, List.not_mem_nil, or_false] at hmem
      rcases hmem with rfl | rfl | rfl
      · simp [holds, horder] at hholds
      · exact hholds
      · simp [holds, horder] at hholds
  · intro hequal
    cases horder : x.order y with
    | lt =>
        have hne : equal x y = false := by
          simp [Bool.eq_false_iff, hequal, horder]
        refine ⟨⟨.lt, ?_, ?_⟩, ?_, ?_⟩ <;> simp [holds, h, horder, hne]
    | eq =>
        have heq : equal x y = true := hequal.2 horder
        refine ⟨⟨.eq, ?_, ?_⟩, ?_, ?_⟩ <;> simp [holds, h, horder, heq]
    | gt =>
        have hne : equal x y = false := by
          simp [Bool.eq_false_iff, hequal, horder]
        refine ⟨⟨.gt, ?_, ?_⟩, ?_, ?_⟩ <;> simp [holds, h, horder, hne]

private theorem coherent_number_iff {m n : Number} :
    Coherent (.number m) (.number n) ↔ m.conflicts n = false := by
  have hequal : m.order n = .eq → m.toBinary64.eqNumber n.toBinary64 = true :=
    Number.eqNumber_of_order_eq
  rw [coherent_iff rfl, Bool.eq_false_iff, ne_eq, Number.conflicts_iff,
    not_and_not_right]
  exact ⟨Iff.mp, fun horder => ⟨horder, hequal⟩⟩

private theorem coherent_string (s t : String) :
    Coherent (.string s) (.string t) := by
  have hequal : equal (.string s) (.string t) = decide (s = t) := rfl
  rw [coherent_iff rfl, hequal, Json.order, Std.LawfulEqCmp.compare_eq_iff_eq,
    decide_eq_true_eq]

private theorem holds_of_incomparable {x y : Json}
    (h : comparable x y = false) :
    ∀ comparison ∈ [lt, le, gt, ge], holds comparison x y = false := by
  simp [holds, h]

private theorem holds_lt_swap (x y : Json) : lt.holds x y = gt.holds y x := by
  rw [holds, holds, comparable_comm, x.order_swap y]
  cases x.order y <;> rfl

/-- Two numbers are compared coherently exactly if they do not conflict, and any
two strings are. Values that are neither two numbers nor two strings have no
order. What is not equal is different, a value is before another exactly if that
one is after it, and equality goes both ways. -/
theorem comparisons_agree (m n : Number) (s t : String) (x y : Json) :
    (Coherent (.number m) (.number n) ↔ m.conflicts n = false) ∧
    Coherent (.string s) (.string t) ∧
    (comparable x y = false →
      ∀ comparison ∈ [lt, le, gt, ge], holds comparison x y = false) ∧
    (ne.holds x y = true ↔ ¬eq.holds x y = true) ∧
    lt.holds x y = gt.holds y x ∧
    eq.holds x y = eq.holds y x :=
  ⟨coherent_number_iff, coherent_string s t,
    holds_of_incomparable, by simp [holds],
    holds_lt_swap x y, equal_comm x y⟩

theorem comparisons_agree_mixed :
    let m : Number := .int 9007199254740993 (by decide)
    let n : Number := .float (Binary64.ofInt 9007199254740992) (by decide +kernel)
    m.conflicts n = false ∧ Coherent (.number m) (.number n) ∧
      Coherent (.string "a") (.string "b") ∧
      comparable (.array []) (.string "a") = false ∧
      le.holds (.array []) (.string "a") = false ∧
      eq.holds (.array []) (.string "a") =
        eq.holds (.string "a") (.array []) := by
  intro m n
  have hclear : m.conflicts n = false := by decide +kernel
  have hapart : comparable (.array []) (.string "a") = false := rfl
  obtain ⟨hnumbers, hstrings, horder, -, -, hequal⟩ :=
    comparisons_agree m n "a" "b" (.array []) (.string "a")
  exact ⟨hclear, hnumbers.2 hclear, hstrings, hapart,
    horder hapart .le (by simp), hequal⟩

example : eq.holds (.ofInt 9007199254740993) (.ofInt 9007199254740992) = true ∧
    gt.holds (.ofInt 9007199254740993) (.ofInt 9007199254740992) = true := by
  decide +kernel

end Comparison

end JobChain
