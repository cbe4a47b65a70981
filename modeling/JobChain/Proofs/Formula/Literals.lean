import JobChain.Proofs.Binary64.Nearest
import JobChain.Proofs.Criterion.Scripts
import JobChain.Proofs.Formula.Comparisons

/-!
# Integers in formulas

The digits of an integer in a formula are read as a floating-point number, and
then stand for the integer that it rounds to. That is the integer itself if its
digits in base two end in zeros behind the leading 53. Equality rounds the other
side too; the order leaves it as it is, if both sides are signed integers.
-/

namespace JobChain

open Binary64 (rounded)

/-! ## Literals -/

namespace Formula

def IsExact (n : Int) : Prop := n.natAbs < 0x8000000000000000 ∧
    2 ^ (n.natAbs.log2 - 52) ∣ n.natAbs

instance (n : Int) : Decidable (IsExact n) :=
  inferInstanceAs (Decidable (_ ∧ _))

variable {n : Int}

private theorem literalOf_ofInt_eq (hn : n.natAbs ≤ 0x8000000000000000) :
    literalOf (Binary64.ofInt n) =
    if (rounded n).natAbs < 0x8000000000000000 then .ofInt (rounded n)
    else .ofBinary64 (Binary64.ofInt n) := by
  simp only [literalOf, Binary64.toInt?_ofInt_eq (hn.trans (by decide))]

private theorem ofInt_eq_number {k : Int} (h : k.natAbs ≤ 0x8000000000000000) :
    ∃ hrange, Json.ofInt k = .number (.int k hrange) := by
  have hrange : -0x8000000000000000 ≤ k ∧ k < 0x10000000000000000 := by omega
  exact ⟨hrange, dif_pos hrange⟩

private theorem ofBinary64_eq_number (hn : n.natAbs ≤ 0x8000000000000000) :
    ∃ hfinite, Json.ofBinary64 (Binary64.ofInt n) =
      .number (.float (Binary64.ofInt n) hfinite) :=
  ⟨_, dif_pos (Binary64.isFinite_ofInt (hn.trans (by decide)))⟩

private theorem literalOf_eq_iff (hn : n.natAbs ≤ 0x8000000000000000) :
    literalOf (Binary64.ofInt n) = .ofInt n ↔ IsExact n := by
  rw [IsExact, ← Binary64.rounded_eq_self_iff, literalOf_ofInt_eq hn]
  obtain ⟨_, hself⟩ := ofInt_eq_number hn
  by_cases hsmall : (rounded n).natAbs < 0x8000000000000000
  · obtain ⟨_, hround⟩ := ofInt_eq_number hsmall.le
    rw [if_pos hsmall, hself, hround, Json.number.injEq, Number.int.injEq]
    exact ⟨fun h => ⟨h ▸ hsmall, h⟩, And.right⟩
  · obtain ⟨_, hfloat⟩ := ofBinary64_eq_number hn
    rw [if_neg hsmall, hself, hfloat]
    refine ⟨fun h => by simp at h, fun ⟨hlt, h⟩ => ?_⟩
    rw [h] at hsmall
    exact absurd hlt hsmall

private theorem exists_literal (hn : n.natAbs ≤ 0x8000000000000000) :
    ∃ x : Number, literalOf (Binary64.ofInt n) = .number x ∧
      x.toBinary64 = Binary64.ofInt n ∧
      x.toSigned? = if (rounded n).natAbs < 0x8000000000000000 then
        some (rounded n) else none := by
  rw [literalOf_ofInt_eq hn]
  by_cases hsmall : (rounded n).natAbs < 0x8000000000000000
  · obtain ⟨hrange, hround⟩ := ofInt_eq_number hsmall.le
    rw [if_pos hsmall, if_pos hsmall]
    exact ⟨_, hround, Binary64.ofInt_rounded n, if_pos (by omega)⟩
  · obtain ⟨_, hfloat⟩ := ofBinary64_eq_number hn
    rw [if_neg hsmall, if_neg hsmall]
    exact ⟨_, hfloat, rfl, rfl⟩

private theorem ofText?_intChars (hn : n.natAbs ≤ 0x8000000000000000) :
    ofText? (String.ofList (Text.intChars n)) =
      some (.literal (literalOf (Binary64.ofInt n))) := by
  have hspells := spells_literalOf (hn.trans (by decide))
  refine ofText?_of_writes
    ⟨_, _, [], .one (.single (.plain (.alone (.literal _)))),
    .single isSpaces_nil hspells, isSpaces_nil, ?_⟩
  simp

/-- Comparisons of an element by a formula, as two integers compare. -/
structure Orders (formula : Comparison → Formula) (element : Json)
    (m n : Int) : Prop where
  lt : (formula .lt).holds element = true ↔ m < n
  le : (formula .le).holds element = true ↔ m ≤ n
  gt : (formula .gt).holds element = true ↔ n < m
  ge : (formula .ge).holds element = true ↔ n ≤ m

private theorem orders_of_order {path : String} {element : Json} {x y : Number}
    {m n : Int} (hfield : Element.field? element path = some (.number x))
    (horder : x.order y = Ord.compare m n) :
    Orders
      (fun comparison =>
        .compare (.path path) comparison (.literal (.number y))) element
          m n := by
  have hholds : ∀ comparison,
      (Formula.compare (.path path) comparison (.literal (.number y))).holds
        element = comparison.holds (.number x) (.number y) := by
    intro comparison
    rw [holds_compare, eval, eval, hfield]
    rfl
  have hcomparable : Comparison.comparable (.number x) (.number y) = true := rfl
  have hcompare : (Json.number x).order (.number y) = Ord.compare m n := horder
  constructor <;>
    simp only [hholds, Comparison.holds, hcomparable, hcompare, Bool.true_and,
      decide_eq_true_eq]
  · exact compare_lt_iff_lt
  · exact compare_le_iff_le
  · exact compare_gt_iff_gt
  · exact compare_ge_iff_ge

def beside (m n : Int) : Int :=
  if m < 0x8000000000000000 ∧ (rounded n).natAbs < 0x8000000000000000 then m
  else rounded m

section

variable {m : Int} {hm : -0x8000000000000000 ≤ m ∧ m < 0x10000000000000000}
  (hn : n.natAbs ≤ 0x8000000000000000) {y : Number}
  (hround : y.toBinary64 = Binary64.ofInt n)

private theorem compare_beside (hexact : IsExact n) :
    Ord.compare (beside m n) n = Ord.compare m n := by
  have hself : rounded n = n := Binary64.rounded_eq_self_iff.2 hexact.2
  rw [beside, hself]
  by_cases hsmall : m < 0x8000000000000000
  · rw [if_pos ⟨hsmall, hexact.1⟩]
  · have hlarge := @Binary64.pow_le_rounded m 63 (not_lt.1 hsmall)
    have hlt := hexact.1
    rw [if_neg fun h => hsmall h.1, compare_gt_iff_gt.2 (by omega),
      compare_gt_iff_gt.2 (by omega)]

include hn hround

private theorem order_literal (hsigned : y.toSigned? =
      if (rounded n).natAbs < 0x8000000000000000 then some (rounded n)
      else none) :
    (Number.int m hm).order y = Ord.compare (beside m n) (rounded n) := by
  have hword : m.natAbs ≤ 2 ^ 64 := by omega
  have hunsigned : (Number.int m hm).toSigned? = none ∨ y.toSigned? = none →
      (Number.int m hm).order y = Ord.compare (rounded m) (rounded n) := by
    intro hnone
    rw [Number.order_of_unsigned hnone, hround, Number.toBinary64,
      Binary64.compare_rank_ofInt hword (hn.trans (by decide))]
  unfold beside
  by_cases hsmall : m < 0x8000000000000000
  · by_cases hsmall' : (rounded n).natAbs < 0x8000000000000000
    · have hself : (Number.int m hm).toSigned? = some m := if_pos hsmall
      rw [if_pos hsmall'] at hsigned
      rw [if_pos ⟨hsmall, hsmall'⟩, Number.order_of_signed hself hsigned]
    · rw [if_neg hsmall'] at hsigned
      rw [if_neg fun h => hsmall' h.2, hunsigned (.inr hsigned)]
  · rw [if_neg fun h => hsmall h.1, hunsigned (.inl (if_neg hsmall))]

private theorem equal_literal :
    Comparison.equal (.number (.int m hm)) (.number y) = true ↔
    rounded m = rounded n := by
  have hword : m.natAbs ≤ 2 ^ 64 := by omega
  change ((Number.int m hm).toBinary64.eqNumber y.toBinary64) = true ↔ _
  rw [hround, Number.toBinary64, Binary64.eqNumber_iff (Binary64.isNaN_ofInt m),
    Binary64.ofInt_eq_ofInt_iff hword (hn.trans (by decide)),
    Binary64.isZero_ofInt, Binary64.isZero_ofInt]
  constructor
  · rintro (h | ⟨rfl, rfl⟩)
    · exact h
    · rfl
  · exact .inl

end

/-- The digits of a signed integer are read as the literal of what it rounds to,
which is the integer itself exactly if that needs no more than its leading 53
bits. A formula that compares a field with it asks whether the integer in the
field rounds to the same, or orders that integer, or what it rounds to if one
side is not signed, and the literal. So equality is that of the integers if the
literal is below two to the power of 53, and the order is theirs for every
integer that is its own literal. -/
theorem integer_literal
    (hn : -0x8000000000000000 ≤ n ∧ n < 0x8000000000000000) {path : String}
    (hpath : (Token.path path).Spells path.toList) {element : Json} {m : Int}
    {hm : -0x8000000000000000 ≤ m ∧ m < 0x10000000000000000}
    (hfield : Element.field? element path = some (.number (.int m hm))) :
    let literal := literalOf (Binary64.ofInt n)
    let formula (comparison : Comparison) : Formula :=
      .compare (.path path) comparison (.literal literal)
    ofText? (String.ofList (Text.intChars n)) = some (.literal literal) ∧
    (literal = .ofInt n ↔ IsExact n) ∧
    (∀ comparison, ofText? (comparedText path comparison (Text.intChars n)) =
      some (formula comparison)) ∧
    ((formula .eq).holds element = true ↔ rounded m = rounded n) ∧
    Orders formula element (beside m n) (rounded n) ∧
    (n.natAbs < Binary64.exactBound →
      ((formula .eq).holds element = true ↔ m = n)) ∧
    (IsExact n → Orders formula element m n) := by
  intro literal formula
  have hsize : n.natAbs ≤ 0x8000000000000000 := by omega
  obtain ⟨y, hliteral, hround, hsigned⟩ := exists_literal hsize
  have hequal : (formula .eq).holds element = true ↔ rounded m = rounded n := by
    rw [← @equal_literal n m hm hsize y hround]
    simp only [formula, literal, hliteral, holds_compare, eval, hfield]
    rfl
  have horder := @order_literal n m hm hsize y hround hsigned
  have horders : ∀ k l, (Number.int m hm).order y = Ord.compare k l →
      Orders formula element k l := by
    intro k l hkl
    simp only [formula, literal, hliteral]
    exact orders_of_order hfield hkl
  refine ⟨ofText?_intChars hsize, literalOf_eq_iff hsize,
    fun comparison => ?_, hequal,
    horders _ _ horder, fun hsmall => ?_, fun hexact => horders _ _ ?_⟩
  · exact ofText?_comparedText hpath
      (spells_literalOf (hsize.trans (by decide))) comparison
  · rw [hequal, (Binary64.rounded_eq_iff_of_lt hsmall).2 rfl,
      Binary64.rounded_eq_iff_of_lt hsmall]
  · rw [horder, Binary64.rounded_eq_self_iff.2 hexact.2, compare_beside hexact]

theorem integer_literal_large :
    let element : Json := .ofFields [("id", .ofInt 9007199254740993)]
    ofText? "9007199254740993" = some (.literal (.ofInt 9007199254740992)) ∧
    ¬IsExact 9007199254740993 ∧
    (∃ formula, ofText? "id == 9007199254740992" = some formula ∧
      formula.holds element = true) ∧
    IsExact 9007199254740994 ∧
    (∃ formula, ofText? "id < 9007199254740994" = some formula ∧
      formula.holds element = true) := by
  intro element
  have hpath : (Token.path "id").Spells "id".toList :=
    IsIdent.spells_path ⟨⟨'i', rfl, by decide⟩, List.all_eq_true.1 (by decide)⟩
      (by decide)
  have hfield : Element.field? element "id" =
      some (.number (.int 9007199254740993 (by decide))) := by decide +kernel
  obtain ⟨hodd, hexact, -⟩ :=
    integer_literal (n := 9007199254740993) (by decide) hpath hfield
  obtain ⟨-, -, hbelow, hequal, -⟩ :=
    integer_literal (n := 9007199254740992) (by decide) hpath hfield
  obtain ⟨-, -, habove, -, -, -, horders⟩ :=
    integer_literal (n := 9007199254740994) (by decide) hpath hfield
  have hliteral : literalOf (Binary64.ofInt 9007199254740993) =
      .ofInt 9007199254740992 := by
    decide +kernel
  have hround : rounded 9007199254740993 = rounded 9007199254740992 := by
    decide +kernel
  have heven : IsExact 9007199254740994 := by decide +kernel
  rw [hliteral] at hodd hexact
  exact ⟨hodd, fun h => absurd (hexact.2 h) (by decide),
    ⟨_, hbelow .eq, hequal.2 hround⟩, heven,
    ⟨_, habove .lt, (horders heven).lt.2 (by decide)⟩⟩

end Formula

end JobChain
