import JobChain.Json.Order
import JobChain.Proofs.Binary64.Rounding
import JobChain.Proofs.Json.Values

/-!
# The order of values

The order cannot tell all numbers apart: `1` and `1.0` are equal in it, and so
are a large integer and the floating-point number that it rounds to. Where two
integers round to the same number, it is equal to both, and the order is not
transitive. Among values without such numbers it is a total preorder. Where it
tells all numbers apart, only values of the same text are equal in it.
-/

namespace JobChain

/-! ## Numbers -/

namespace Number

theorem order_of_signed {x y : Number} {m n : Int} (hx : x.toSigned? = some m)
    (hy : y.toSigned? = some n) : x.order y = compare m n := by
  simp [order, hx, hy]

theorem order_of_unsigned {x y : Number}
    (h : x.toSigned? = none ∨ y.toSigned? = none) :
    x.order y = compare x.toBinary64.rank y.toBinary64.rank := by
  rcases h with h | h
  · simp [order, h, Binary64.totalOrder]
  · cases hx : x.toSigned? <;> simp [order, h, hx, Binary64.totalOrder]

theorem order_swap (x y : Number) : y.order x = (x.order y).swap := by
  cases hx : x.toSigned? with
  | none =>
      rw [order_of_unsigned (.inl hx), order_of_unsigned (.inr hx)]
      exact Std.OrientedCmp.eq_swap
  | some m =>
      cases hy : y.toSigned? with
      | none =>
          rw [order_of_unsigned (.inl hy), order_of_unsigned (.inr hy)]
          exact Std.OrientedCmp.eq_swap
      | some n =>
          rw [order_of_signed hx hy, order_of_signed hy hx]
          exact Std.OrientedCmp.eq_swap

def blurs (x y : Number) : Bool := x.order y = .eq && x ≠ y

theorem eq_of_order_eq {x y : Number} (h : x.order y = .eq)
    (hclear : x.blurs y = false) : x = y := by
  simpa [blurs, h] using hclear

theorem toBinary64_of_toSigned? {x : Number} {n : Int}
    (h : x.toSigned? = some n) : x.toBinary64 = Binary64.ofInt n := by
  cases x with
  | int m _ =>
      simp only [toSigned?, Option.ite_none_right_eq_some,
        Option.some.injEq] at h
      rw [toBinary64, h.2]
  | float x _ => cases h

private theorem rank_le_of_isLE {x y : Number} (h : (x.order y).isLE = true) :
    x.toBinary64.rank ≤ y.toBinary64.rank := by
  cases hx : x.toSigned? with
  | none =>
      rw [order_of_unsigned (.inl hx)] at h
      exact Int.isLE_compare.1 h
  | some m =>
      cases hy : y.toSigned? with
      | none =>
          rw [order_of_unsigned (.inr hy)] at h
          exact Int.isLE_compare.1 h
      | some n =>
          rw [order_of_signed hx hy] at h
          rw [toBinary64_of_toSigned? hx, toBinary64_of_toSigned? hy]
          exact Binary64.rank_ofInt_mono (Int.isLE_compare.1 h)

theorem toBinary64_eq_of_order_eq {x y : Number}
    (h : x.order y = .eq) : x.toBinary64 = y.toBinary64 := by
  refine Binary64.rank_injective
    (Int.le_antisymm (rank_le_of_isLE (by simp [h])) ?_)
  exact rank_le_of_isLE (by simp [order_swap x y, h])

private theorem exists_signed_of_order_ne {x y : Number}
    (hround : x.toBinary64 = y.toBinary64) (hne : x.order y ≠ .eq) :
    ∃ m n, x.toSigned? = some m ∧ y.toSigned? = some n ∧ m ≠ n := by
  have hsigned : x.toSigned? ≠ none ∧ y.toSigned? ≠ none := by
    refine not_or.1 fun hnone => hne ?_
    rw [order_of_unsigned hnone, hround]
    exact Std.ReflCmp.compare_self
  obtain ⟨m, hm⟩ := Option.ne_none_iff_exists'.1 hsigned.1
  obtain ⟨n, hn⟩ := Option.ne_none_iff_exists'.1 hsigned.2
  exact ⟨m, n, hm, hn, by simpa [order_of_signed hm hn] using hne⟩

/-- A number that is no signed integer hides two different signed integers that
round to it: both are equal to it in the order, and not to one another. -/
def hides (x y z : Number) : Bool :=
  match x.toSigned?, y.toSigned?, z.toSigned? with
  | none, some m, some n =>
      m ≠ n && x.toBinary64 = Binary64.ofInt m &&
        x.toBinary64 = Binary64.ofInt n
  | _, _, _ => false

private theorem hides_iff {x y z : Number} :
    x.hides y z = true ↔ x.order y = .eq ∧ x.order z = .eq ∧
    y.order z ≠ .eq := by
  constructor
  · intro h
    unfold hides at h
    split at h
    · rename_i m n hx hy hz
      simp only [Bool.and_eq_true, decide_eq_true_eq] at h
      obtain ⟨⟨hne, hm⟩, hn⟩ := h
      rw [order_of_unsigned (.inl hx), order_of_unsigned (.inl hx),
        order_of_signed hy hz, toBinary64_of_toSigned? hy,
        toBinary64_of_toSigned? hz, ← hm, ← hn]
      simpa using hne
    · cases h
  · rintro ⟨hy, hz, hne⟩
    have hround := toBinary64_eq_of_order_eq hy
    have hround' := toBinary64_eq_of_order_eq hz
    obtain ⟨m, n, hm, hn, hdiffer⟩ :=
      exists_signed_of_order_ne (hround.symm.trans hround') hne
    cases hx : x.toSigned? with
    | none =>
        rw [toBinary64_of_toSigned? hm] at hround
        rw [toBinary64_of_toSigned? hn] at hround'
        simp only [hides, hx, hm, hn]
        simpa [← hround, ← hround'] using hdiffer
    | some l =>
        simp only [order_of_signed hx hm, order_of_signed hx hn,
          Int.compare_eq_eq] at hy hz
        exact absurd (hy.symm.trans hz) hdiffer

private theorem hides_comm (x y z : Number) : x.hides z y = x.hides y z := by
  rw [Bool.eq_iff_iff, hides_iff, hides_iff, order_swap y z, ne_eq, ne_eq,
    Ordering.swap_eq_eq, and_left_comm]

def tangled (x y z : Number) : Bool := x.hides y z || y.hides z x || z.hides x y

private theorem tangled_reverse (x y z : Number) :
    z.tangled y x = x.tangled y z := by
  rw [tangled, z.hides_comm x y, y.hides_comm z x, x.hides_comm y z,
    Bool.or_comm, Bool.or_comm (z.hides x y), ← Bool.or_assoc]
  rfl

private theorem order_eq_of_cycle {x y z : Number}
    (hxy : (x.order y).isLE = true) (hyz : (y.order z).isLE = true)
    (hzx : (z.order x).isLE = true)
    (h : z.hides x y = false) : x.order y = .eq := by
  have hrank := rank_le_of_isLE hxy
  have hrank' := rank_le_of_isLE hyz
  have hrank'' := rank_le_of_isLE hzx
  by_contra hne
  -- All three round to the same, so the first two are different signed
  -- integers.
  obtain ⟨l, m, hl, hm, -⟩ :=
    exists_signed_of_order_ne (Binary64.rank_injective (by omega)) hne
  cases hz : z.toSigned? with
  | none =>
      have hhides : z.hides x y = true := by
        refine hides_iff.2 ⟨?_, ?_, hne⟩ <;>
          · rw [order_of_unsigned (.inl hz), Int.compare_eq_eq]
            omega
      rw [h] at hhides
      cases hhides
  | some n =>
      rw [order_of_signed hl hm, Int.isLE_compare] at hxy
      rw [order_of_signed hm hz, Int.isLE_compare] at hyz
      rw [order_of_signed hz hl, Int.isLE_compare] at hzx
      refine hne ?_
      rw [order_of_signed hl hm, Int.compare_eq_eq]
      omega

theorem untangled_of_clear {x y z : Number} (hxy : x.blurs y = false)
    (hyz : y.blurs z = false)
    (hzx : z.blurs x = false) : x.tangled y z = false := by
  have hhides : ∀ {x y z : Number}, x.blurs y = false →
      x.hides y z = false := by
    intro x y z hclear
    rw [Bool.eq_false_iff, ne_eq, hides_iff]
    rintro ⟨hy, hz, hne⟩
    obtain rfl := eq_of_order_eq hy hclear
    exact hne hz
  rw [tangled, hhides hxy, hhides hyz, hhides hzx]
  rfl

end Number

/-! ## Values -/

namespace Json

mutual

/-- Whether two values hold different numbers at one place that the order cannot
tell apart. Objects are ordered by their text, in which no numbers are equal but
the same. -/
def blurs : Json → Json → Bool
  | .number x, .number y => x.blurs y
  | .array xs, .array ys => blursItems xs ys
  | _, _ => false

def blursItems : List Json → List Json → Bool
  | x :: xs, y :: ys => x.blurs y || blursItems xs ys
  | _, _ => false

end

@[elab_as_elim]
theorem induct₂ {motive : Json → Json → Prop}
    (kinds : ∀ x y : Json, x.kindRank ≠ y.kindRank →
      x.order y = compare x.kindRank y.kindRank →
      motive x y)
    (null : motive .null .null) (bool : ∀ x y, motive (.bool x) (.bool y))
    (number : ∀ x y, motive (.number x) (.number y))
    (string : ∀ x y, motive (.string x) (.string y))
    (array : ∀ xs ys, (∀ x ∈ xs, ∀ y, motive x y) →
      motive (.array xs) (.array ys))
    (object : ∀ xs ys, motive (.object xs) (.object ys))
    (x y : Json) : motive x y := by
  induction x using induct generalizing y with
  | null =>
      cases y with
      | null => exact null
      | _ => exact kinds _ _ (by simp [kindRank]) rfl
  | bool x =>
      cases y with
      | bool y => exact bool x y
      | _ => exact kinds _ _ (by simp [kindRank]) rfl
  | number x =>
      cases y with
      | number y => exact number x y
      | _ => exact kinds _ _ (by simp [kindRank]) rfl
  | string x =>
      cases y with
      | string y => exact string x y
      | _ => exact kinds _ _ (by simp [kindRank]) rfl
  | array xs ih =>
      cases y with
      | array ys => exact array xs ys ih
      | _ => exact kinds _ _ (by simp [kindRank]) rfl
  | object xs ih =>
      cases y with
      | object ys => exact object xs ys
      | _ => exact kinds _ _ (by simp [kindRank]) rfl

private theorem orderItems_swap {xs : List Json}
    (hitems : ∀ x ∈ xs, ∀ y, order y x = (order x y).swap) (ys : List Json) :
    orderItems ys xs = (orderItems xs ys).swap := by
  induction xs generalizing ys with
  | nil => cases ys <;> rfl
  | cons x xs ih =>
      cases ys with
      | nil => rfl
      | cons y ys =>
          have htail :=
            ih (fun other hother => hitems other (.tail _ hother)) ys
          rw [orderItems, orderItems, hitems x List.mem_cons_self y, htail,
            Ordering.swap_then]

theorem order_swap (x y : Json) : y.order x = (x.order y).swap := by
  induction x, y using induct₂ with
  | kinds x y hne horder =>
      rw [horder, ← Std.OrientedCmp.eq_swap]
      cases x <;> cases y <;> first | rfl | exact absurd rfl hne
  | null => rfl
  | bool x y | string x y | object x y =>
      rw [order, order]
      exact Std.OrientedCmp.eq_swap
  | number x y => exact x.order_swap y
  | array xs ys ih =>
      rw [order, order]
      exact orderItems_swap ih ys

private theorem kindRank_le_of_isLE {x y : Json}
    (h : (x.order y).isLE = true) : x.kindRank ≤ y.kindRank := by
  induction x, y using induct₂ with
  | kinds x y hne horder =>
      rw [horder] at h
      exact Nat.isLE_compare.1 h
  | _ => exact Nat.le_refl _

/-! ### Equal values -/

private theorem itemsBefore_congr {xs ys : List Json}
    (h : xs.map text = ys.map text) (tail : List Char) :
    itemsBefore xs tail = itemsBefore ys tail := by
  induction xs generalizing ys with
  | nil =>
      obtain rfl : ys = [] := by simpa using h.symm
      rfl
  | cons x xs ih =>
      cases ys with
      | nil => simp at h
      | cons y ys =>
          obtain ⟨hxy, htail⟩ := List.cons.inj h
          have hrest := ih htail
          cases xs with
          | nil =>
              obtain rfl : ys = [] := by simpa using htail.symm
              simp only [itemsBefore, charsBefore_eq, hxy]
          | cons x' xs =>
              cases ys with
              | nil => simp at htail
              | cons y' ys => simp only [itemsBefore, charsBefore_eq x,
                  charsBefore_eq y, hxy, hrest]

private theorem map_text_eq_of_orderItems_eq {xs ys : List Json}
    (hitems : ∀ x ∈ xs, ∀ y, x.order y = .eq → x.blurs y = false →
      x.text = y.text)
    (h : orderItems xs ys = .eq)
    (hclear : blursItems xs ys = false) : xs.map text = ys.map text := by
  induction xs generalizing ys with
  | nil =>
      cases ys with
      | nil => rfl
      | cons y ys => simp [orderItems] at h
  | cons x xs ih =>
      cases ys with
      | nil => simp [orderItems] at h
      | cons y ys =>
          simp only [orderItems, Ordering.then_eq_eq] at h
          simp only [blursItems, Bool.or_eq_false_iff] at hclear
          have htail :=
            ih (fun other hother => hitems other (.tail _ hother)) h.2 hclear.2
          rw [List.map_cons, List.map_cons, htail,
            hitems x List.mem_cons_self y h.1 hclear.1]

theorem text_eq_of_order_eq {x y : Json} (h : x.order y = .eq)
    (hclear : x.blurs y = false) : x.text = y.text := by
  induction x, y using induct₂ with
  | kinds x y hne horder =>
      rw [horder] at h
      exact absurd (Nat.compare_eq_eq.1 h) hne
  | null => rfl
  | bool x y | string x y =>
      rw [order] at h
      rw [Std.LawfulEqCmp.eq_of_compare h]
  | number x y => rw [Number.eq_of_order_eq h hclear]
  | array xs ys ih =>
      rw [order] at h
      rw [blurs] at hclear
      have hitems := map_text_eq_of_orderItems_eq ih h hclear
      simp only [text, charsBefore, itemsBefore_congr hitems]
  | object xs ys =>
      rw [order] at h
      exact Std.LawfulEqCmp.eq_of_compare h

/-! ### Cycles -/

mutual

/-- Whether one of three numbers at one place of three values hides the others,
the place being the first at which the values are not all equal. -/
def tangled : Json → Json → Json → Bool
  | .number x, .number y, .number z => x.tangled y z
  | .array xs, .array ys, .array zs => tangledItems xs ys zs
  | _, _, _ => false

def tangledItems : List Json → List Json → List Json → Bool
  | x :: xs, y :: ys, z :: zs =>
      x.tangled y z ||
        (x.order y = .eq && y.order z = .eq && tangledItems xs ys zs)
  | _, _, _ => false

end

private theorem untangledItems_of_clear {xs : List Json}
    (hitems : ∀ x ∈ xs, ∀ y z : Json, x.blurs y = false → y.blurs z = false →
      z.blurs x = false → x.tangled y z = false) {ys zs : List Json}
    (hxy : blursItems xs ys = false) (hyz : blursItems ys zs = false)
    (hzx : blursItems zs xs = false) : tangledItems xs ys zs = false := by
  induction xs generalizing ys zs with
  | nil => rfl
  | cons x xs ih =>
      obtain ⟨hx, hxs⟩ := List.forall_mem_cons.1 hitems
      match ys, zs with
      | [], _ | _ :: _, [] => rfl
      | y :: ys, z :: zs =>
          simp only [blursItems, Bool.or_eq_false_iff] at hxy hyz hzx
          rw [tangledItems, hx y z hxy.1 hyz.1 hzx.1, ih hxs hxy.2 hyz.2 hzx.2]
          simp

theorem untangled_of_clear {x y z : Json} (hxy : x.blurs y = false)
    (hyz : y.blurs z = false)
    (hzx : z.blurs x = false) : x.tangled y z = false := by
  induction x using induct generalizing y z with
  | number x => cases y <;> cases z <;>
      first | rfl | exact Number.untangled_of_clear hxy hyz hzx
  | array xs ih =>
      cases y <;> cases z <;> first
        | rfl
        | exact untangledItems_of_clear (fun x hx _ _ => ih x hx) hxy hyz hzx
  | null | bool | string | object => rfl

private theorem tangledItems_reverse {xs : List Json}
    (hitems : ∀ x ∈ xs, ∀ y z : Json, z.tangled y x = x.tangled y z)
    (ys zs : List Json) : tangledItems zs ys xs = tangledItems xs ys zs := by
  induction xs generalizing ys zs with
  | nil => cases ys <;> cases zs <;> rfl
  | cons x xs ih =>
      obtain ⟨hx, hxs⟩ := List.forall_mem_cons.1 hitems
      match ys, zs with
      | [], [] | [], _ :: _ | _ :: _, [] => rfl
      | y :: ys, z :: zs =>
          rw [tangledItems, tangledItems, hx y z, ih hxs ys zs, order_swap y z,
            order_swap x y]
          simp only [Ordering.swap_eq_eq]
          rw [Bool.and_comm (decide (y.order z = .eq))]

private theorem tangled_reverse (x y z : Json) :
    z.tangled y x = x.tangled y z := by
  induction x using induct generalizing y z with
  | number x =>
      cases y <;> cases z <;> first | rfl | exact x.tangled_reverse _ _
  | array xs ih =>
      cases y <;> cases z <;> first | rfl | exact tangledItems_reverse ih _ _
  | null | bool | string | object => cases y <;> cases z <;> rfl

/-- The order leads around three values, and their numbers are not tangled. -/
structure Cycles (x y z : Json) : Prop where
  first : (x.order y).isLE = true
  second : (y.order z).isLE = true
  third : (z.order x).isLE = true
  untangled : x.tangled y z = false

private theorem orderItems_cycle {xs : List Json}
    (hitems : ∀ x ∈ xs, ∀ y z, Cycles x y z →
      x.order y = .eq ∧ y.order z = .eq ∧ z.order x = .eq) {ys zs : List Json}
    (h : Cycles (.array xs) (.array ys) (.array zs)) :
    orderItems xs ys = .eq ∧ orderItems ys zs = .eq ∧
    orderItems zs xs = .eq := by
  obtain ⟨hxy, hyz, hzx, hclear⟩ := h
  simp only [order, tangled] at *
  induction xs generalizing ys zs with
  | nil =>
      cases zs with
      | nil =>
          cases ys with
          | nil => exact ⟨rfl, rfl, rfl⟩
          | cons y ys => cases hyz
      | cons z zs => cases hzx
  | cons x xs ih =>
      cases ys with
      | nil => cases hxy
      | cons y ys =>
          cases zs with
          | nil => cases hyz
          | cons z zs =>
              simp only [orderItems, Ordering.isLE_then_iff_and] at hxy hyz hzx
              simp only [tangledItems, Bool.or_eq_false_iff] at hclear
              obtain ⟨hfirst, hsecond, hthird⟩ :=
                hitems x List.mem_cons_self y z ⟨hxy.1, hyz.1, hzx.1, hclear.1⟩
              have htail :=
                ih (fun other hother => hitems other (.tail _ hother))
                  (hxy.2.resolve_left (by simp [hfirst])) (hyz.2.resolve_left
                    (by simp [hsecond]))
                (hzx.2.resolve_left (by simp [hthird]))
                (by simpa [hfirst, hsecond] using hclear.2)
              simpa [orderItems, hfirst, hsecond, hthird] using htail

private theorem Cycles.kindRank_eq {x y z : Json} (h : Cycles x y z) :
    x.kindRank = y.kindRank ∧ y.kindRank = z.kindRank := by
  have hxy := kindRank_le_of_isLE h.first
  have hyz := kindRank_le_of_isLE h.second
  have hzx := kindRank_le_of_isLE h.third
  omega

private theorem compare_cycle {α : Type} [Ord α] [Std.TransOrd α] {x y z : α}
    (hxy : (compare x y).isLE = true) (hyz : (compare y z).isLE = true)
    (hzx : (compare z x).isLE = true) :
    compare x y = .eq ∧ compare y z = .eq ∧ compare z x = .eq :=
  ⟨Std.OrientedCmp.isLE_antisymm hxy (Std.TransCmp.isLE_trans hyz hzx),
    Std.OrientedCmp.isLE_antisymm hyz (Std.TransCmp.isLE_trans hzx hxy),
    Std.OrientedCmp.isLE_antisymm hzx (Std.TransCmp.isLE_trans hxy hyz)⟩

private theorem Cycles.order_eq {x y z : Json} (h : Cycles x y z) :
    x.order y = .eq ∧ y.order z = .eq ∧ z.order x = .eq := by
  induction x, y using induct₂ generalizing z with
  | kinds x y hne => exact absurd h.kindRank_eq.1 hne
  | null =>
      cases z with
      | null => exact ⟨rfl, rfl, rfl⟩
      | _ => exact absurd h.kindRank_eq.2 (by simp [kindRank])
  | bool x y =>
      cases z with
      | bool z => exact compare_cycle h.first h.second h.third
      | _ => exact absurd h.kindRank_eq.2 (by simp [kindRank])
  | string x y =>
      cases z with
      | string z => exact compare_cycle h.first h.second h.third
      | _ => exact absurd h.kindRank_eq.2 (by simp [kindRank])
  | number x y =>
      cases z with
      | number z =>
          obtain ⟨hxy, hyz, hzx, hclear⟩ := h
          simp only [tangled, Number.tangled, Bool.or_eq_false_iff] at hclear
          obtain ⟨⟨hx, hy⟩, hz⟩ := hclear
          exact ⟨Number.order_eq_of_cycle hxy hyz hzx hz,
            Number.order_eq_of_cycle hyz hzx hxy hx,
            Number.order_eq_of_cycle hzx hxy hyz hy⟩
      | _ => exact absurd h.kindRank_eq.2 (by simp [kindRank])
  | array xs ys ih =>
      cases z with
      | array zs => simpa only [order] using orderItems_cycle ih h
      | _ => exact absurd h.kindRank_eq.2 (by simp [kindRank])
  | object xs ys =>
      cases z with
      | object zs => exact compare_cycle h.first h.second h.third
      | _ => exact absurd h.kindRank_eq.2 (by simp [kindRank])

theorem isLE_trans {x y z : Json} (hxy : (x.order y).isLE = true)
    (hyz : (y.order z).isLE = true)
    (h : x.tangled y z = false) : (x.order z).isLE = true := by
  cases hzx : (z.order x).isLE with
  | false =>
      rw [order_swap x z] at hzx
      cases horder : x.order z <;> simp_all
  | true =>
      have hcycle : Cycles x y z := ⟨hxy, hyz, hzx, h⟩
      rw [order_swap z x, hcycle.order_eq.2.2]
      rfl

private theorem order_eq_trans {x y z : Json} (hxy : x.order y = .eq)
    (hyz : y.order z = .eq) (h : x.tangled y z = false) : x.order z = .eq := by
  have hle := isLE_trans (by simp [hxy]) (by simp [hyz]) h
  have hge := @isLE_trans z y x (by simp [order_swap y z, hyz])
    (by simp [order_swap x y, hxy]) (by rwa [tangled_reverse])
  rw [order_swap x z] at hge
  cases horder : x.order z <;> simp_all

/-- The order of two values turns around when they are exchanged. On three
values whose numbers are not tangled it is transitive, and so is being equal in
it. On numbers no condition could say less: a number hides two others exactly if
it is equal to both of them in the order and they are not to one another. -/
theorem order_isPreorder (x y z : Json) :
    y.order x = (x.order y).swap ∧
    (x.tangled y z = false →
      ((x.order y).isLE = true → (y.order z).isLE = true →
        (x.order z).isLE = true) ∧
      (x.order y = .eq → y.order z = .eq → x.order z = .eq)) ∧
    ∀ l m n : Number, l.hides m n = true ↔ l.order m = .eq ∧ l.order n = .eq ∧
      m.order n ≠ .eq :=
  ⟨x.order_swap y, fun h => ⟨fun hxy hyz => isLE_trans hxy hyz h,
    fun hxy hyz => order_eq_trans hxy hyz h⟩, fun _ _ _ => Number.hides_iff⟩

theorem order_isPreorder_mixed :
    let x : Json := .array [.ofInt 9007199254740993,
      .ofBinary64 (Binary64.ofInt 1)]
    let y : Json := .array [.ofInt 9007199254740993, .ofInt 1]
    let z : Json := .array [.ofBinary64 (Binary64.ofInt 9007199254740992),
      .ofInt 2]
    x.tangled y z = false ∧ y.order x = (x.order y).swap ∧
      (x.order y).isLE = true ∧ (y.order z).isLE = true ∧
      (x.order z).isLE = true ∧ x.order x = .eq := by
  intro x y z
  have hclear : x.tangled y z = false := by decide +kernel
  have hself : x.tangled y x = false := by decide +kernel
  have hxy : (x.order y).isLE = true := by decide +kernel
  have hyz : (y.order z).isLE = true := by decide +kernel
  obtain ⟨hswap, hchain, -⟩ := order_isPreorder x y z
  obtain ⟨-, hback, -⟩ := order_isPreorder x y x
  exact ⟨hclear, hswap, hxy, hyz, (hchain hclear).1 hxy hyz,
    (hback hself).2 (by decide +kernel) (by decide +kernel)⟩

example :
    let x : Json := .ofInt 9007199254740993
    let y : Json := .ofBinary64 (Binary64.ofInt 9007199254740992)
    let z : Json := .ofInt 9007199254740992
    x.order y = .eq ∧ y.order z = .eq ∧ x.order z = .gt := by decide +kernel

end Json

end JobChain
