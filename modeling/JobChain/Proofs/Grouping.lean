import JobChain.Proofs.Json.Order
import JobChain.Reduction
import Mathlib.Algebra.GroupWithZero.Nat
import Mathlib.Data.List.Basic

/-!
# Groups of records

Where an order of keys is transitive, sorting and gathering make one group for
each class of equal keys. A group holds the values of its class in the order in
which they came, under the key that came first.
-/

namespace JobChain

/-! ## Orders of keys -/

private theorem Binary64.totalOrder_swap (x y : Binary64) :
    y.totalOrder x = (x.totalOrder y).swap := by
  rw [totalOrder, totalOrder]
  exact Std.OrientedCmp.eq_swap

namespace KeyOrder

theorem compare_swap (order : KeyOrder) (x y : Json) :
    order.compare y x = (order.compare x y).swap := by
  cases order with
  | natural => exact x.order_swap y
  | reverse => exact y.order_swap x
  | numeric =>
      unfold compare
      cases number? x <;> cases number? y <;> first
        | exact x.order_swap y
        | exact Binary64.totalOrder_swap _ _

@[simp] theorem compare_self (order : KeyOrder)
    (x : Json) : order.compare x x = .eq := by
  have hswap := order.compare_swap x x
  cases hcompare : order.compare x x with
  | eq => rfl
  | lt | gt => simp [hcompare] at hswap

theorem compare_eq_comm {order : KeyOrder} {x y : Json} :
    order.compare x y = .eq ↔ order.compare y x = .eq := by
  rw [order.compare_swap x y, Ordering.swap_eq_eq]

/-- Whether two keys can be equal in an order and still have different texts:
they hold different numbers at one place that it cannot tell apart, or they are
written differently and read as the same number. -/
def blurs (order : KeyOrder) (x y : Json) : Bool :=
  match order with
  | .natural | .reverse => x.blurs y
  | .numeric =>
      match number? x, number? y with
      | some m, some n => m = n && x.text ≠ y.text
      | _, _ => x.blurs y

/-- Keys that are equal in an order have the same text, unless it blurs them. -/
theorem text_eq_of_compare_eq {order : KeyOrder} {x y : Json}
    (h : order.compare x y = .eq)
    (hclear : order.blurs x y = false) : x.text = y.text := by
  cases order with
  | natural => exact Json.text_eq_of_order_eq h hclear
  | reverse =>
      exact Json.text_eq_of_order_eq
        ((@compare_eq_comm .reverse x y).1 h) hclear
  | numeric =>
      cases hx : number? x with
      | none =>
          simp only [compare, blurs, hx] at h hclear
          exact Json.text_eq_of_order_eq h hclear
      | some m =>
          cases hy : number? y with
          | none =>
              simp only [compare, blurs, hx, hy] at h hclear
              exact Json.text_eq_of_order_eq h hclear
          | some n =>
              simp only [compare, blurs, hx, hy] at h hclear
              have hsame :=
                Binary64.rank_injective (Std.LawfulEqCmp.eq_of_compare h)
              simpa [hsame] using hclear

def IsTransOn (order : KeyOrder) (keys : List Json) : Prop :=
  ∀ x ∈ keys, ∀ y ∈ keys, ∀ z ∈ keys, (order.compare x y).isLE = true →
    (order.compare y z).isLE = true → (order.compare x z).isLE = true

theorem IsTransOn.mono {order : KeyOrder} {keys others : List Json}
    (h : order.IsTransOn keys)
    (hothers : ∀ key ∈ others, key ∈ keys) : order.IsTransOn others :=
  fun x hx y hy z hz => h x (hothers x hx) y (hothers y hy) z (hothers z hz)

/-- Where no numbers are tangled the order of values is transitive, and so is
its reverse. -/
theorem isTransOn_of_untangled {order : KeyOrder} {keys : List Json}
    (horder : order ≠ .numeric)
    (h : ∀ x ∈ keys, ∀ y ∈ keys, ∀ z ∈ keys, x.tangled y z = false) :
    order.IsTransOn keys := by
  intro x hx y hy z hz hxy hyz
  cases order with
  | natural => exact Json.isLE_trans hxy hyz (h x hx y hy z hz)
  | reverse => exact Json.isLE_trans hyz hxy (h z hz y hy x hx)
  | numeric => exact absurd rfl horder

theorem isTransOn_of_clear {order : KeyOrder} {keys : List Json}
    (horder : order ≠ .numeric)
    (hclear : ∀ x ∈ keys, ∀ y ∈ keys, order.blurs x y = false) :
    order.IsTransOn keys := by
  refine isTransOn_of_untangled horder fun x hx y hy z hz => ?_
  cases order with
  | natural | reverse =>
      exact Json.untangled_of_clear (hclear x hx y hy) (hclear y hy z hz)
        (hclear z hz x hx)
  | numeric => exact absurd rfl horder

/-- Where all keys are numbers, or write some, the order by numbers is
transitive. -/
theorem isTransOn_numeric {keys : List Json}
    (h : ∀ key ∈ keys, (number? key).isSome = true) :
    numeric.IsTransOn keys := by
  intro x hx y hy z hz hxy hyz
  obtain ⟨l, hl⟩ := Option.isSome_iff_exists.1 (h x hx)
  obtain ⟨m, hm⟩ := Option.isSome_iff_exists.1 (h y hy)
  obtain ⟨n, hn⟩ := Option.isSome_iff_exists.1 (h z hz)
  simp only [compare, hl, hm, hn, Binary64.totalOrder] at *
  exact Std.TransCmp.isLE_trans hxy hyz

section

variable {order : KeyOrder} {keys : List Json} (h : order.IsTransOn keys)
  {x y z : Json} (hx : x ∈ keys) (hy : y ∈ keys) (hz : z ∈ keys)

include h hx hy hz

private theorem IsTransOn.eq_trans (hxy : order.compare x y = .eq)
    (hyz : order.compare y z = .eq) : order.compare x z = .eq := by
  have hle := h x hx y hy z hz (by simp [hxy]) (by simp [hyz])
  have hge := h z hz y hy x hx (by simp [compare_eq_comm.1 hyz])
    (by simp [compare_eq_comm.1 hxy])
  rw [order.compare_swap x z] at hge
  cases hcompare : order.compare x z <;> simp_all

private theorem IsTransOn.eq_of_between (hxy : (order.compare x y).isLE = true)
    (hyz : (order.compare y z).isLE = true)
    (hxz : order.compare x z = .eq) : order.compare x y = .eq := by
  have hge := h y hy z hz x hx hyz (by simp [compare_eq_comm.1 hxz])
  rw [order.compare_swap x y] at hge
  cases hcompare : order.compare x y <;> simp_all

end

end KeyOrder

/-! ## Sorting -/

namespace Pair

def keys (pairs : List Pair) : List Json := pairs.map Pair.key

theorem mem_keys {pairs : List Pair} {pair : Pair}
    (h : pair ∈ pairs) : pair.key ∈ keys pairs :=
  List.mem_map_of_mem h

def sharing (order : KeyOrder) (key : Json) (pairs : List Pair) : List Pair :=
  pairs.filter fun pair => order.compare key pair.key = .eq

section

variable {order : KeyOrder} {pairs : List Pair}

private theorem mem_sharing {key : Json} {pair : Pair} :
    pair ∈ sharing order key pairs ↔ pair ∈ pairs ∧
    order.compare key pair.key = .eq := by
  simp [sharing]

private theorem sort_perm (order : KeyOrder)
    (pairs : List Pair) : (sort order pairs).Perm pairs :=
  List.mergeSort_perm ..

@[simp] theorem mem_sort {pair : Pair} : pair ∈ sort order pairs ↔
    pair ∈ pairs :=
  (sort_perm order pairs).mem_iff

private theorem sort_eq_attach (order : KeyOrder) (pairs : List Pair) :
    sort order pairs = (pairs.attach.mergeSort fun x y =>
      (order.compare x.1.key y.1.key).isLE).map Subtype.val := by
  have hmap := @List.map_mergeSort _ _ (fun x y : { pair // pair ∈ pairs } =>
    (order.compare x.1.key y.1.key).isLE)
      (fun x y => (order.compare x.key y.key).isLE) Subtype.val
    pairs.attach (fun _ _ _ _ => rfl)
  rw [hmap, List.attach_map_subtype_val]
  rfl

variable (htrans : order.IsTransOn (keys pairs))

include htrans

private theorem sharing_congr {x y : Json} (hx : x ∈ keys pairs)
    (hy : y ∈ keys pairs) (hxy : order.compare x y = .eq) :
    sharing order x pairs = sharing order y pairs := by
  refine List.filter_congr fun pair hpair => ?_
  have hkey := mem_keys hpair
  rw [decide_eq_decide]
  exact ⟨htrans.eq_trans hy hx hkey (KeyOrder.compare_eq_comm.1 hxy),
    htrans.eq_trans hx hy hkey hxy⟩

private theorem attach_trans (x y z : { pair // pair ∈ pairs }) :
    (order.compare x.1.key y.1.key).isLE = true →
    (order.compare y.1.key z.1.key).isLE = true →
      (order.compare x.1.key z.1.key).isLE = true :=
  htrans _ (mem_keys x.2) _ (mem_keys y.2) _ (mem_keys z.2)

omit htrans in
private theorem attach_total (x y : { pair // pair ∈ pairs }) :
    ((order.compare x.1.key y.1.key).isLE ||
      (order.compare y.1.key x.1.key).isLE) = true := by
  rw [order.compare_swap x.1.key y.1.key]
  cases order.compare x.1.key y.1.key <;> rfl

private theorem pairwise_sort :
    (sort order pairs).Pairwise fun x y => (order.compare x.key y.key).isLE =
      true := by
  rw [sort_eq_attach, List.pairwise_map]
  exact List.pairwise_mergeSort (attach_trans htrans) attach_total _

private theorem sharing_sort {key : Json} (hkey : key ∈ keys pairs) :
    sharing order key (sort order pairs) = sharing order key pairs := by
  have hsublist : (sharing order key pairs).Sublist (sort order pairs) := by
    have hattach : sharing order key pairs = (pairs.attach.filter fun pair =>
        order.compare key pair.1.key = .eq).map Subtype.val := by
      conv_lhs => rw [sharing, ← pairs.attach_map_subtype_val]
      rw [List.filter_map]
      rfl
    rw [hattach, sort_eq_attach]
    refine (List.sublist_mergeSort (attach_trans htrans) attach_total ?_
      List.filter_sublist).map _
    refine List.pairwise_of_forall_mem_list fun x hx y hy => ?_
    have hx' :=
      KeyOrder.compare_eq_comm.1 (of_decide_eq_true (List.mem_filter.1 hx).2)
    have hy' := of_decide_eq_true (List.mem_filter.1 hy).2
    exact htrans _ (mem_keys x.2) _ hkey _ (mem_keys y.2) (by simp [hx'])
      (by simp [hy'])
  have hidem : sharing order key (sharing order key pairs) =
      sharing order key pairs := by
    simp [sharing]
  have hfilter :
      (sharing order key pairs).Sublist
        (sharing order key (sort order pairs)) := by
    rw [← hidem]
    exact hsublist.filter _
  exact (hfilter.eq_of_length
    ((sort_perm order pairs).filter _).length_eq.symm).symm

end

def apart (order : KeyOrder) (key : Json) (pairs : List Pair) : List Pair :=
  pairs.filter fun pair => !decide (order.compare key pair.key = .eq)

private theorem mem_apart {order : KeyOrder} {key : Json} {pairs : List Pair}
    {pair : Pair} : pair ∈ apart order key pairs ↔ pair ∈ pairs ∧
    order.compare key pair.key ≠ .eq := by
  simp [apart]

private theorem sharing_apart {order : KeyOrder} {pairs : List Pair}
    (htrans : order.IsTransOn (keys pairs)) {x y : Json} (hx : x ∈ keys pairs)
    (hy : y ∈ keys pairs) (hapart : order.compare x y ≠ .eq) :
    sharing order y (apart order x pairs) = sharing order y pairs := by
  unfold sharing apart
  rw [List.filter_filter]
  refine List.filter_congr fun pair hpair => ?_
  by_cases hequal : order.compare y pair.key = .eq
  · have hother : order.compare x pair.key ≠ .eq := fun heq =>
      hapart
        (htrans.eq_trans hx (mem_keys hpair) hy heq
          (KeyOrder.compare_eq_comm.1 hequal))
    simp [hequal, hother]
  · simp [hequal]

private theorem span_of_sorted {order : KeyOrder} {first : Pair}
    {rest : List Pair} (htrans : order.IsTransOn (keys (first :: rest)))
    (hsorted : (first :: rest).Pairwise fun x y =>
      (order.compare x.key y.key).isLE = true) :
    (rest.takeWhile fun pair => order.compare first.key pair.key = .eq) =
        sharing order first.key rest ∧
      (rest.dropWhile fun pair => order.compare first.key pair.key = .eq) =
        apart order first.key rest := by
  induction rest with
  | nil => exact ⟨rfl, rfl⟩
  | cons next rest ih =>
      have hsublist : (first :: rest).Sublist (first :: next :: rest) :=
        (List.sublist_cons_self next rest).cons_cons first
      obtain ⟨htake, hdrop⟩ := ih
        (htrans.mono fun key hkey => (hsublist.map Pair.key).mem hkey)
        (hsorted.sublist hsublist)
      by_cases hequal : order.compare first.key next.key = .eq
      · rw [sharing] at htake
        rw [apart] at hdrop
        simp [sharing, apart, hequal, htake, hdrop]
      · have hothers : ∀ pair ∈ rest, order.compare first.key pair.key ≠
            .eq := by
          intro pair hpair heq
          obtain ⟨hfirst, hnext⟩ := List.pairwise_cons.1 hsorted
          refine hequal
            (htrans.eq_of_between (mem_keys (by simp)) (mem_keys (by simp))
              (@mem_keys _ pair (by simp [hpair]))
              (hfirst next (by simp)) ?_ heq)
          exact (List.pairwise_cons.1 hnext).1 pair hpair
        have hnone : sharing order first.key rest = [] :=
          List.filter_eq_nil_iff.2 fun pair hpair => by
            simpa using hothers pair hpair
        have hall : apart order first.key rest = rest :=
          List.filter_eq_self.2 fun pair hpair => by
            simpa using hothers pair hpair
        simp only [sharing, apart] at hnone hall
        simp [sharing, apart, hequal, hnone, hall]

end Pair

/-! ## Gathering -/

namespace Group

open Pair (keys sharing apart mem_keys mem_sharing mem_apart)

def ofSharing? : List Pair → Option Group
  | [] => none
  | first :: rest => some ⟨first.key, (first :: rest).map Pair.value⟩

def ofKey? (order : KeyOrder) (key : Json) (pairs : List Pair) : Option Group :=
  ofSharing? (sharing order key pairs)

theorem exists_of_ofKey? {order : KeyOrder} {key : Json} {pairs : List Pair}
    {group : Group} (h : ofKey? order key pairs = some group) :
    ∃ pair ∈ pairs, pair.key = group.key ∧
      order.compare key pair.key = .eq := by
  unfold ofKey? at h
  cases hsharing : sharing order key pairs with
  | nil => simp [hsharing, ofSharing?] at h
  | cons first rest =>
      simp only [hsharing, ofSharing?, Option.some.injEq] at h
      obtain ⟨hfirst, hequal⟩ := mem_sharing.1 (hsharing ▸ List.mem_cons_self)
      exact ⟨first, hfirst, by rw [← h], hequal⟩

private theorem gather_eq (order : KeyOrder) (key : Json) (values : List Json)
    (pairs : List Pair) : gather order key values pairs =
      ⟨key, values.reverse ++
        (pairs.takeWhile fun pair => order.compare key pair.key =
          .eq).map Pair.value⟩ ::
      ofSorted order (pairs.dropWhile fun pair => order.compare key pair.key =
        .eq) := by
  induction pairs generalizing values with
  | nil => simp [gather, ofSorted]
  | cons pair rest ih =>
      by_cases hequal : order.compare key pair.key = .eq
      · simp [gather, hequal, ih]
      · simp [gather, hequal, ofSorted]

section

variable {order : KeyOrder} {pairs : List Pair} {group : Group}

private theorem ofSorted_cons {first : Pair} {rest : List Pair}
    (htrans : order.IsTransOn (keys (first :: rest)))
    (hsorted : (first :: rest).Pairwise fun x y =>
      (order.compare x.key y.key).isLE = true) :
    ofSorted order (first :: rest) =
      ⟨first.key, (sharing order first.key (first :: rest)).map Pair.value⟩ ::
      ofSorted order (apart order first.key (first :: rest)) := by
  obtain ⟨htake, hdrop⟩ := Pair.span_of_sorted htrans hsorted
  have hsharing : sharing order first.key (first :: rest) =
      first :: sharing order first.key rest := by simp [sharing]
  have hapart : apart order first.key (first :: rest) =
      apart order first.key rest := by
    simp [apart]
  rw [ofSorted, gather_eq, htake, hdrop, hsharing, hapart]
  rfl

private theorem exists_ofKey?_cons_iff {first : Pair} {rest : List Pair}
    (htrans : order.IsTransOn (keys (first :: rest))) :
    (∃ pair ∈ first :: rest, ofKey? order pair.key (first :: rest) =
      some group) ↔
      group =
        ⟨first.key, (sharing order first.key (first :: rest)).map Pair.value⟩ ∨
      ∃ pair ∈ apart order first.key (first :: rest),
        ofKey? order pair.key (apart order first.key (first :: rest)) =
          some group := by
  have hfirst : ofKey? order first.key (first :: rest) =
      some
        ⟨first.key,
          (sharing order first.key (first :: rest)).map Pair.value⟩ := by
    simp [ofKey?, sharing, ofSharing?]
  have hapart : ∀ pair ∈ first :: rest, order.compare first.key pair.key ≠ .eq →
      ofKey? order pair.key (apart order first.key (first :: rest)) =
        ofKey? order pair.key (first :: rest) := by
    intro pair hpair hne
    rw [ofKey?, ofKey?,
      Pair.sharing_apart htrans (mem_keys List.mem_cons_self)
        (mem_keys hpair) hne]
  constructor
  · rintro ⟨pair, hpair, hgroup⟩
    by_cases hequal : order.compare first.key pair.key = .eq
    · refine .inl ?_
      rw [ofKey?,
        ← Pair.sharing_congr htrans (mem_keys List.mem_cons_self)
          (mem_keys hpair) hequal,
        ← ofKey?, hfirst] at hgroup
      exact (Option.some.inj hgroup).symm
    · exact .inr ⟨pair, mem_apart.2 ⟨hpair, hequal⟩,
        (hapart pair hpair hequal).trans hgroup⟩
  · rintro (rfl | ⟨pair, hpair, hgroup⟩)
    · exact ⟨first, List.mem_cons_self, hfirst⟩
    · obtain ⟨hmem, hne⟩ := mem_apart.1 hpair
      exact ⟨pair, hmem, (hapart pair hmem hne).symm.trans hgroup⟩

/-- Gathering a sorted list makes one group for each class, in increasing
order. -/
theorem ofSorted_spec (htrans : order.IsTransOn (keys pairs))
    (hsorted : pairs.Pairwise fun x y =>
      (order.compare x.key y.key).isLE = true) :
    (∀ group, group ∈ ofSorted order pairs ↔
      ∃ pair ∈ pairs, ofKey? order pair.key pairs = some group) ∧
    (ofSorted order pairs).Pairwise fun x y => order.compare x.key y.key =
      .lt := by
  induction hlength : pairs.length using Nat.strongRecOn generalizing pairs with
  | ind length ih =>
      cases pairs with
      | nil => simp [ofSorted]
      | cons first rest =>
          have hsub :
              (apart order first.key (first :: rest)).Sublist (first :: rest) :=
            List.filter_sublist
          have hshorter : (apart order first.key (first :: rest)).length <
              length := by
            have hrest : apart order first.key (first :: rest) =
                apart order first.key rest := by
              simp [apart]
            rw [hrest, ← hlength]
            exact Nat.lt_succ_of_le (List.length_filter_le ..)
          obtain ⟨hmem, hpairwise⟩ := ih _ hshorter
            (htrans.mono fun key hkey => (hsub.map Pair.key).mem hkey)
            (hsorted.sublist hsub) rfl
          rw [ofSorted_cons htrans hsorted]
          refine ⟨fun group => ?_,
            List.pairwise_cons.2 ⟨fun group hgroup => ?_, hpairwise⟩⟩
          · rw [List.mem_cons, hmem, exists_ofKey?_cons_iff htrans]
          · obtain ⟨pair, hpair, hofKey⟩ := (hmem group).1 hgroup
            obtain ⟨member, hmember, hkey, -⟩ := exists_of_ofKey? hofKey
            obtain ⟨hin, hne⟩ := mem_apart.1 hmember
            have hle : (order.compare first.key member.key).isLE = true := by
              rcases List.mem_cons.1 hin with rfl | hin
              · simp
              · exact (List.pairwise_cons.1 hsorted).1 member hin
            rw [← hkey]
            cases hcompare : order.compare first.key member.key <;> simp_all

/-! ## Sorting and gathering -/

variable (htrans : order.IsTransOn (keys pairs))

include htrans

private theorem isTransOn_sort :
    order.IsTransOn (keys (Pair.sort order pairs)) :=
  htrans.mono fun _ hkey =>
    ((Pair.sort_perm order pairs).map Pair.key).mem_iff.1 hkey

theorem mem_ofPairs_iff :
    group ∈ ofPairs order pairs ↔ ∃ pair ∈ pairs, ofKey? order pair.key pairs =
      some group := by
  rw [ofPairs,
    (ofSorted_spec (isTransOn_sort htrans) (Pair.pairwise_sort htrans)).1]
  refine exists_congr fun pair => ?_
  rw [Pair.mem_sort]
  refine and_congr_right fun hpair => ?_
  rw [ofKey?, Pair.sharing_sort htrans (mem_keys hpair), ofKey?]

theorem pairwise_ofPairs :
    (ofPairs order pairs).Pairwise fun x y => order.compare x.key y.key = .lt :=
  (ofSorted_spec (isTransOn_sort htrans) (Pair.pairwise_sort htrans)).2

theorem nodup_ofPairs : (ofPairs order pairs).Nodup :=
  (pairwise_ofPairs htrans).imp fun hlt heq => by simp [heq] at hlt

/-! ## Values of groups -/

private theorem ofKey?_congr {x y : Json} (hx : x ∈ keys pairs)
    (hy : y ∈ keys pairs) (hxy : order.compare x y = .eq) :
    ofKey? order x pairs = ofKey? order y pairs := by
  rw [ofKey?, ofKey?, Pair.sharing_congr htrans hx hy hxy]

private theorem ofKey?_key (hgroup : group ∈ ofPairs order pairs) :
    group.key ∈ keys pairs ∧ ofKey? order group.key pairs = some group := by
  obtain ⟨pair, hpair, hofKey⟩ := (mem_ofPairs_iff htrans).1 hgroup
  obtain ⟨member, hmember, hkey, hequal⟩ := exists_of_ofKey? hofKey
  have hmem : group.key ∈ keys pairs := hkey ▸ mem_keys hmember
  refine ⟨hmem, ?_⟩
  rw [← ofKey?_congr htrans (mem_keys hpair) hmem (hkey ▸ hequal), hofKey]

private theorem existsUnique_group {pair : Pair} (hpair : pair ∈ pairs) :
    ∃! group, group ∈ ofPairs order pairs ∧
      order.compare group.key pair.key = .eq := by
  obtain ⟨first, rest, hsharing⟩ := List.exists_cons_of_ne_nil
    (List.ne_nil_of_mem (mem_sharing.2 ⟨hpair, order.compare_self pair.key⟩))
  have hofKey : ofKey? order pair.key pairs =
      some ⟨first.key, (first :: rest).map Pair.value⟩ := by
    rw [ofKey?, hsharing, ofSharing?]
  have hfirst := (mem_sharing.1 (hsharing ▸ List.mem_cons_self)).2
  refine ⟨_, ⟨(mem_ofPairs_iff htrans).2 ⟨pair, hpair, hofKey⟩,
    KeyOrder.compare_eq_comm.1 hfirst⟩, ?_⟩
  rintro other ⟨hother, hequal⟩
  obtain ⟨hmem, hself⟩ := ofKey?_key htrans hother
  rw [ofKey?_congr htrans hmem (mem_keys hpair) hequal, hofKey] at hself
  exact (Option.some.inj hself).symm

omit htrans in
private theorem flatMap_values_gather (order : KeyOrder) (key : Json)
    (values : List Json) (pairs : List Pair) :
    (gather order key values pairs).flatMap Group.values =
      values.reverse ++ pairs.map Pair.value := by
  induction pairs generalizing key values with
  | nil => simp [gather]
  | cons pair rest ih =>
      by_cases hequal : order.compare key pair.key = .eq
      · simp [gather, hequal, ih]
      · simp [gather, hequal, ih]

omit htrans in
private theorem flatMap_values_perm (order : KeyOrder) (pairs : List Pair) :
    ((ofPairs order pairs).flatMap Group.values).Perm
      (pairs.map Pair.value) := by
  have hsorted : ∀ sorted, (ofSorted order sorted).flatMap Group.values =
      sorted.map Pair.value := by
    intro sorted
    cases sorted with
    | nil => rfl
    | cons first rest =>
        exact flatMap_values_gather order first.key [first.value] rest
  rw [ofPairs, hsorted]
  exact (Pair.sort_perm order pairs).map _

/-- Where an order of keys is transitive, the groups of records come in strictly
increasing order of their keys, and each record belongs to exactly one of them.
A group is not empty: it holds the values of all records whose keys are equal to
its own, in the order in which they came, and its key is that of the first of
them. Together the groups hold as many values as there are records. -/
theorem ofPairs_classes :
    (ofPairs order pairs).Pairwise
      (fun x y => order.compare x.key y.key = .lt) ∧
    (∀ pair ∈ pairs,
      ∃! group, group ∈ ofPairs order pairs ∧
        order.compare group.key pair.key = .eq) ∧
    (∀ group ∈ ofPairs order pairs,
      group.values ≠ [] ∧
      group.values = (sharing order group.key pairs).map Pair.value ∧
      some group.key = (sharing order group.key pairs).head?.map Pair.key) ∧
    ((ofPairs order pairs).map fun group => group.values.length).sum =
      pairs.length := by
  refine ⟨pairwise_ofPairs htrans, fun pair => existsUnique_group htrans,
    fun group hgroup => ?_, ?_⟩
  · have hself := (ofKey?_key htrans hgroup).2
    rw [ofKey?] at hself
    cases hsharing : sharing order group.key pairs with
    | nil => simp [hsharing, ofSharing?] at hself
    | cons first rest =>
        rw [hsharing, ofSharing?, Option.some.injEq] at hself
        rw [← hself]
        exact ⟨List.cons_ne_nil _ _, rfl, rfl⟩
  · have hlength := (flatMap_values_perm order pairs).length_eq
    rwa [List.length_flatMap, List.length_map] at hlength

end

theorem ofPairs_classes_numerals :
    let pairs : List Pair :=
      [⟨.string " 2", .ofNat 1⟩, ⟨.ofNat 10, .ofNat 2⟩,
        ⟨.string "2.0", .ofNat 3⟩]
    KeyOrder.numeric.IsTransOn (keys pairs) ∧
      (ofPairs .numeric pairs).Pairwise
        (fun x y => KeyOrder.numeric.compare x.key y.key = .lt) ∧
      (∃! group, group ∈ ofPairs .numeric pairs ∧
        KeyOrder.numeric.compare group.key (.string "2.0") = .eq) ∧
      (∀ group ∈ ofPairs .numeric pairs,
        group.values ≠ [] ∧
        group.values = (sharing .numeric group.key pairs).map Pair.value ∧
        some group.key =
          (sharing .numeric group.key pairs).head?.map Pair.key) ∧
      ((ofPairs .numeric pairs).map fun group => group.values.length).sum =
        3 := by
  intro pairs
  have htrans : KeyOrder.numeric.IsTransOn (keys pairs) :=
    KeyOrder.isTransOn_numeric (by decide +kernel)
  obtain ⟨hpairwise, hunique, hvalues, hlength⟩ := ofPairs_classes htrans
  exact ⟨htrans, hpairwise, hunique ⟨.string "2.0", .ofNat 3⟩ (by simp [pairs]),
    hvalues, hlength⟩

end Group

end JobChain
