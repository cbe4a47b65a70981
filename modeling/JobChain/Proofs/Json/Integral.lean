import JobChain.Csv
import JobChain.Proofs.Grouping
import JobChain.Proofs.Json.RoundTrip
import JobChain.Proofs.Store.Ways

/-!
# Keys that an order tells apart

Where all numbers are signed integers, the order of values is a linear one: two
such values that are equal in it have the same text, and so they are the same,
however deeply they are nested. What is read from a text or a table is
canonical.
-/

namespace JobChain

namespace Json

/-! ## Integers alone -/

mutual

def isIntegral : Json → Bool
  | .number n => n.toSigned?.isSome
  | .array items => areIntegral items
  | .object fields => areIntegralFields fields
  | _ => true

def areIntegral : List Json → Bool
  | [] => true
  | item :: rest => item.isIntegral && areIntegral rest

def areIntegralFields : List (String × Json) → Bool
  | [] => true
  | (_, value) :: rest => value.isIntegral && areIntegralFields rest

end

private theorem areIntegral_iff {items : List Json} :
    areIntegral items = true ↔ ∀ item ∈ items, item.isIntegral = true := by
  induction items with
  | nil => simp [areIntegral]
  | cons item rest ih => simp [areIntegral, ih]

private theorem areIntegralFields_iff {fields : List (String × Json)} :
    areIntegralFields fields = true ↔ ∀ field ∈ fields,
    field.2.isIntegral = true := by
  induction fields with
  | nil => simp [areIntegralFields]
  | cons field rest ih => simp [areIntegralFields, ih]

private theorem isStable_of_isIntegral {value : Json}
    (h : value.isIntegral = true) : value.isStable = true := by
  induction value using induct with
  | number n =>
      cases n with
      | int n hrange => exact Number.isStable_int n hrange
      | float x hfinite => cases h
  | array items ih =>
      rw [isIntegral, areIntegral_iff] at h
      exact areStable_iff.2 fun item hitem => ih item hitem (h item hitem)
  | object fields ih =>
      rw [isIntegral, areIntegralFields_iff] at h
      exact areStableFields_iff.2 fun field hfield =>
        ih field hfield (h field hfield)
  | _ => rfl

private theorem blurs_of_isIntegral {x y : Json} (hx : x.isIntegral = true)
    (hy : y.isIntegral = true) : x.blurs y = false := by
  induction x, y using induct₂ with
  | number x y =>
      obtain ⟨m, hm⟩ := Option.isSome_iff_exists.1 hx
      obtain ⟨n, hn⟩ := Option.isSome_iff_exists.1 hy
      rw [blurs, Number.blurs, Number.order_of_signed hm hn]
      by_cases hsame : m = n
      · subst hsame
        have heq : x = y := by
          cases x <;> cases y <;> simp_all [Number.toSigned?]
        simp [heq]
      · simp [hsame]
  | array xs ys ih =>
      rw [isIntegral, areIntegral_iff] at hx hy
      rw [blurs]
      induction xs generalizing ys with
      | nil => rfl
      | cons x xs ihs =>
          cases ys with
          | nil => rfl
          | cons y ys =>
              obtain ⟨hfirst, hrest⟩ := List.forall_mem_cons.1 hx
              obtain ⟨hfirst', hrest'⟩ := List.forall_mem_cons.1 hy
              obtain ⟨ihx, ihxs⟩ := List.forall_mem_cons.1 ih
              rw [blursItems, ihx y hfirst hfirst', ihs ys ihxs hrest hrest',
                Bool.or_self]
  | kinds x y hne =>
      cases x <;> cases y <;> first | rfl | exact absurd rfl hne
  | _ => rfl

/-- Values of integers that are equal in the order are the same. -/
theorem eq_of_order_eq {x y : Json} (hx : x.isIntegral = true)
    (hy : y.isIntegral = true) (h : x.order y = .eq) : x = y :=
  eq_of_text_eq (isStable_of_isIntegral hx) (isStable_of_isIntegral hy)
    (text_eq_of_order_eq h (blurs_of_isIntegral hx hy))

end Json

namespace KeyOrder

variable {order : KeyOrder} (horder : order ≠ .numeric)

include horder

theorem compare_eq_iff_of_isIntegral {x y : Json} (hx : x.isIntegral = true)
    (hy : y.isIntegral = true) : order.compare x y = .eq ↔ x = y := by
  refine ⟨fun h => ?_, fun h => h ▸ order.compare_self x⟩
  cases order with
  | natural => exact Json.eq_of_order_eq hx hy h
  | reverse => exact (Json.eq_of_order_eq hy hx h).symm
  | numeric => exact absurd rfl horder

theorem isTransOn_of_isIntegral {keys : List Json}
    (h : ∀ key ∈ keys, key.isIntegral = true) : order.IsTransOn keys :=
  isTransOn_of_untangled horder fun x hx y hy z hz =>
    Json.untangled_of_clear (Json.blurs_of_isIntegral (h x hx) (h y hy))
      (Json.blurs_of_isIntegral (h y hy) (h z hz))
      (Json.blurs_of_isIntegral (h z hz) (h x hx))

end KeyOrder

namespace Json

/-- On values whose numbers are all signed integers the order is linear: one of
two comes first, it turns around when they are exchanged, it is transitive, and
only the same values are equal in it. The reverse order is the same one turned
around. -/
theorem order_isLinear {x y z : Json} (hx : x.isIntegral = true)
    (hy : y.isIntegral = true) (hz : z.isIntegral = true) :
    ((x.order y).isLE = true ∨ (y.order x).isLE = true) ∧
    y.order x = (x.order y).swap ∧
    ((x.order y).isLE = true → (y.order z).isLE = true →
      (x.order z).isLE = true) ∧
    (x.order y = .eq ↔ x = y) ∧
    KeyOrder.reverse.compare x y = (KeyOrder.natural.compare x y).swap ∧
    (KeyOrder.reverse.compare x y = .eq ↔
      KeyOrder.natural.compare x y = .eq) := by
  have hnatural : KeyOrder.natural ≠ .numeric := by decide
  have htrans := @KeyOrder.isTransOn_of_isIntegral .natural hnatural [x, y,
    z] (by simp [hx, hy, hz])
  refine ⟨?_, x.order_swap y, htrans x (by simp) y (by simp) z (by simp),
    KeyOrder.compare_eq_iff_of_isIntegral hnatural hx hy, x.order_swap y,
    KeyOrder.natural.compare_eq_comm⟩
  rw [x.order_swap y]
  cases x.order y <;> simp

theorem order_isLinear_objects :
    let x : Json := .array [.ofFields [("a", .ofInt (-5))]]
    let y : Json := .array [.ofFields [("a", .ofInt (-5)),
      ("b", .array [.null])]]
    let z : Json := .array [.ofFields [("a", .ofInt (-5)), ("c", .string "")],
      .ofInt 0]
    x.isIntegral = true ∧ y.isIntegral = true ∧ z.isIntegral = true ∧
      y.order x = (x.order y).swap ∧ (x.order y = .eq ↔ x = y) ∧
      (y.order z).isLE = true ∧ (z.order x).isLE = true ∧
      (y.order x).isLE = true ∧
      KeyOrder.reverse.compare y z = (KeyOrder.natural.compare y z).swap := by
  intro x y z
  have hx : x.isIntegral = true := by decide
  have hy : y.isIntegral = true := by decide
  have hz : z.isIntegral = true := by decide
  have hyz : (y.order z).isLE = true := by decide +kernel
  have hzx : (z.order x).isLE = true := by decide +kernel
  obtain ⟨-, hswap, -, hequal, -⟩ := order_isLinear hx hy hz
  obtain ⟨-, -, htrans, -, hreverse, -⟩ := order_isLinear hy hz hx
  exact ⟨hx, hy, hz, hswap, hequal, hyz, hzx, htrans hyz hzx, hreverse⟩

/-! ## Keys -/

/-- A value that is a key without loss: its numbers are signed integers, and it
has room for one more level around it. -/
structure IsKey (key : Json) : Prop where
  canonical : key.Canonical
  integral : key.isIntegral = true
  shallow : key.depth < Document.maxDepth

theorem IsKey.returns {key : Json} (h : key.IsKey) :
    key.Returns (Document.maxDepth - 1) where
  canonical := h.canonical
  stable := isStable_of_isIntegral h.integral
  shallow := Nat.le_sub_one_of_lt h.shallow

end Json

/-! ## What is read is canonical -/

theorem Assoc.forall_insert {α : Type} {test : α → Prop} {key : String}
    {value : α} {entries : List (String × α)} (hvalue : test value)
    (h : ∀ entry ∈ entries, test entry.2) : ∀ entry ∈ insert key value entries,
    test entry.2 := by
  intro entry hentry
  rcases mem_insert hentry with rfl | hentry
  · exact hvalue
  · exact h entry hentry

namespace Document

open Json (canonicalItems_iff canonicalFields_iff)

mutual

theorem canonical_value :
    (document : Document) → ∀ {room json}, document.value room = .ok json →
    json.Canonical
  | .null, _, _, h | .bool _, _, _, h | .number (some _), _, _,
      h | .string (some _), _, _, h => by
      cases h
      trivial
  | .number none, _, _, h | .string none, _, _, h | .broken, _, _,
      h => by cases h
  | .array items closed, room, json, h => by
      cases room with
      | zero => cases h
      | succ room =>
          simp only [value, bind_eq_ok_iff] at h
          obtain ⟨values, hvalues, h⟩ := h
          split at h
          · cases h
            exact canonicalItems_iff.2 (canonical_values items hvalues)
          · cases h
  | .object fields closed, room, json, h => by
      cases room with
      | zero => cases h
      | succ room =>
          simp only [value, bind_eq_ok_iff] at h
          obtain ⟨sorted, hsorted, h⟩ := h
          split at h
          · cases h
            obtain ⟨hsorted, hfields⟩ :=
              canonical_fieldValues fields List.Pairwise.nil (by simp) hsorted
            exact ⟨hsorted, canonicalFields_iff.2 hfields⟩
          · cases h

private theorem canonical_values : (items : List Document) → ∀ {room values},
    Document.values room items = .ok values → ∀ value ∈ values, value.Canonical
  | [], _, _, h => by
      cases h
      simp
  | item :: rest, room, values, h => by
      simp only [Document.values, bind_eq_ok_iff] at h
      obtain ⟨first, hfirst, others, hothers, h⟩ := h
      cases h
      exact List.forall_mem_cons.2 ⟨canonical_value item hfirst,
        canonical_values rest hothers⟩

private theorem canonical_fieldValues :
    (fields : List (Option String × Document)) → ∀ {room sorted values},
    Assoc.Sorted sorted → (∀ field ∈ sorted, field.2.Canonical) →
    fieldValues room sorted fields = .ok values →
    Assoc.Sorted values ∧ ∀ field ∈ values, field.2.Canonical
  | [], _, _, _, hsorted, hfields, h => by
      cases h
      exact ⟨hsorted, hfields⟩
  | (none, _) :: _, _, _, _, _, _, h => by cases h
  | (some key, document) :: rest, room, sorted, values, hsorted,
      hfields, h => by
      simp only [fieldValues, bind_eq_ok_iff] at h
      obtain ⟨value, hvalue, h⟩ := h
      exact canonical_fieldValues rest (Assoc.sorted_insert hsorted)
        (Assoc.forall_insert (canonical_value document hvalue) hfields) h

end

end Document

theorem Decoder.exists_of_ofText {α : Type} {decode : Decoder α} {text : String}
    {value : α} (h : decode.ofText text = .ok value) :
    ∃ document, decode Document.maxDepth document = .ok value := by
  obtain ⟨read, hread, hrest⟩ := bind_eq_ok_iff.1 h
  split at hrest
  · split_ifs at hrest
    cases hrest
    exact ⟨_, hread⟩
  · cases hrest

namespace Json

private theorem canonical_of_ofText? {text : String} {value : Json}
    (h : ofText? text = some value) : value.Canonical := by
  have hread : Decoder.json.ofText text = .ok value := by
    unfold ofText? at h
    cases hresult : Decoder.json.ofText text <;> simp_all [Except.toOption]
  obtain ⟨document, hvalue⟩ := Decoder.exists_of_ofText hread
  exact Document.canonical_value document hvalue

private theorem canonical_field? {value found : Json} {key : String}
    (hvalue : value.Canonical)
    (h : value.field? key = some found) : found.Canonical := by
  cases value with
  | object fields =>
      exact canonicalFields_iff.1 hvalue.2 _ (Assoc.mem_of_lookup h)
  | _ => cases h

theorem canonical_at? {value found : Json} {keys : List String}
    (hvalue : value.Canonical)
    (h : value.at? keys = some found) : found.Canonical := by
  induction keys generalizing value with
  | nil =>
      cases h
      exact hvalue
  | cons key rest ih =>
      obtain ⟨next, hnext, hrest⟩ := Option.bind_eq_some_iff.1 h
      exact ih (canonical_field? hvalue hnext) hrest

end Json

private theorem Csv.canonical_object (names fields : List String) :
    (object names fields).Canonical := by
  have hall : ∀ {sorted : List (String × Json)}, Assoc.Sorted sorted →
      (∀ field ∈ sorted, field.2.Canonical) →
      (Json.object (object.insertFields sorted names fields)).Canonical := by
    induction names generalizing fields with
    | nil => exact fun hsorted hfields =>
        ⟨hsorted, Json.canonicalFields_iff.2 hfields⟩
    | cons name names ih =>
        intro sorted hsorted hfields
        cases fields with
        | nil =>
            exact ih [] (Assoc.sorted_insert hsorted)
              (Assoc.forall_insert trivial hfields)
        | cons field fields =>
            exact ih fields (Assoc.sorted_insert hsorted)
              (Assoc.forall_insert trivial hfields)
  exact hall List.Pairwise.nil (by simp)

namespace RecordFormat

private theorem canonical_of_readLines {decode : Json → Except IoError Pair}
    (hdecode : ∀ value pair, value.Canonical → decode value = .ok pair →
      pair.value.Canonical)
    {lines : List (Option String)} {pairs : List Pair}
    (h : readLines decode lines = .ok pairs) :
    ∀ pair ∈ pairs, pair.value.Canonical := by
  induction lines generalizing pairs with
  | nil =>
      cases h
      simp
  | cons line rest ih =>
      cases line with
      | none => cases h
      | some line =>
          rw [readLines] at h
          split_ifs at h
          · exact ih h
          split at h
          · cases h
          · rename_i value hvalue
            simp only [bind_eq_ok_iff] at h
            obtain ⟨pair, hpair, others, hothers, h⟩ := h
            cases h
            have hfirst :=
              hdecode value pair (Json.canonical_of_ofText? hvalue) hpair
            exact List.forall_mem_cons.2 ⟨hfirst, ih hothers⟩

theorem canonical_of_read {format : RecordFormat} {file : Path}
    {content : Content} {pairs : List Pair}
    (h : format.read file content = .ok pairs) :
    ∀ pair ∈ pairs, pair.value.Canonical := by
  cases format with
  | jsonLines =>
      refine canonical_of_readLines (fun value pair hvalue hpair => ?_) h
      cases hpair
      exact hvalue
  | keyValue =>
      refine canonical_of_readLines (fun value pair hvalue hpair => ?_) h
      unfold readPair at hpair
      split at hpair
      · rename_i found hfound
        cases hpair
        exact Json.canonical_field? hvalue hfound
      · cases hpair
  | csv =>
      rw [read] at h
      split at h
      · rename_i values hvalues
        cases h
        obtain ⟨records, -, rfl⟩ := Option.map_eq_some_iff.1 hvalues
        intro pair hpair
        obtain ⟨value, hvalue, rfl⟩ := List.mem_map.1 hpair
        cases records with
        | nil => simp at hvalue
        | cons names rows =>
            obtain ⟨fields, -, rfl⟩ := List.mem_map.1 hvalue
            exact Csv.canonical_object _ fields
      · cases h

end RecordFormat

end JobChain
