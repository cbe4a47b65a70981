import JobChain.Proofs.Json.RoundTrip
import JobChain.Proofs.Store.Files

/-!
# Records in files

What is written as pairs line by line, or as values line by line, is read as it
was. A number that is an integer always comes back from its text; of a
floating-point number this has to be known.
-/

namespace JobChain

/-! ## Numbers in values -/

namespace Json

inductive Contains (number : Number) : Json → Prop where
  | number : Contains number (.number number)
  | item {items : List Json} {item : Json} (hitem : item ∈ items)
      (h : Contains number item) :
      Contains number (.array items)
  | field {fields : List (String × Json)}
      {field : String × Json} (hfield : field ∈ fields)
      (h : Contains number field.2) : Contains number (.object fields)

theorem isStable_iff {value : Json} :
    value.isStable = true ↔ ∀ number, Contains number value →
    number.isStable = true := by
  constructor
  · intro hstable number h
    induction h with
    | number => exact hstable
    | item hitem _ ih => exact ih (areStable_iff.1 hstable _ hitem)
    | field hfield _ ih => exact ih (areStableFields_iff.1 hstable _ hfield)
  · intro h
    induction value using Json.induct with
    | null | bool | string => rfl
    | number number => exact h number .number
    | array items ih =>
        exact areStable_iff.2 fun item hitem =>
          ih item hitem fun number hnumber =>
          h number (.item hitem hnumber)
    | object fields ih =>
        exact areStableFields_iff.2 fun field hfield =>
          ih field hfield fun number hnumber =>
          h number (.field hfield hnumber)

structure IsWritable (room : Nat) (value : Json) : Prop where
  canonical : value.Canonical
  floats : ∀ x hfinite, Contains (.float x hfinite) value →
      (Number.float x hfinite).isStable = true
  shallow : value.depth ≤ room

theorem isWritable_iff {room : Nat} {value : Json} : value.IsWritable room ↔
    value.Returns room := by
  constructor
  · rintro ⟨hcanonical, hfloats, hshallow⟩
    refine ⟨hcanonical, isStable_iff.2 fun number hnumber => ?_, hshallow⟩
    cases number with
    | int n hrange => exact Number.isStable_int n hrange
    | float x hfinite => exact hfloats x hfinite hnumber
  · rintro ⟨hcanonical, hstable, hshallow⟩
    exact ⟨hcanonical, fun _ _ => isStable_iff.1 hstable _, hshallow⟩

end Json

/-! ## Files that can be written -/

namespace Store

private theorem exists_write {store after : Store} {path : Path}
    {content : Content} (h : store.write path content = .ok after)
    (other : Content) : ∃ after, store.write path other = .ok after := by
  simp only [write, bind_eq_ok_iff] at h
  obtain ⟨directory, henter, h⟩ := h
  split_ifs at h with hplain
  obtain ⟨place, hdescend, h⟩ := bind_eq_ok_iff.1 h
  split_ifs at h with hfree
  refine ⟨store.put place (.file other), ?_⟩
  simp only [write, bind_eq_ok_iff]
  refine ⟨directory, henter, ?_⟩
  rw [if_neg hplain, bind_eq_ok_iff]
  exact ⟨place, hdescend, if_neg hfree⟩

theorem exists_save {format : RecordFormat} {path : Path} {pairs : List Pair}
    {store after : Store} (h : Succeeds (format.save path pairs) store () after)
    (others : List Pair) :
    ∃ after, Succeeds (format.save path others) store () after := by
  have hwrite : ∀ {between after : Store},
      Succeeds (change fun store =>
        store.write path (.text (format.write pairs))) between () after →
        ∃ after,
          Succeeds (change fun store =>
            store.write path (.text (format.write others)))
          between () after := by
    intro between after hwrite
    obtain ⟨after, hother⟩ := exists_write (succeeds_change_iff.1 hwrite)
      (.text (format.write others))
    exact ⟨after, succeeds_change_iff.2 hother⟩
  unfold RecordFormat.save at h ⊢
  cases hdirectory : path.directory? with
  | none =>
      rw [hdirectory] at h
      exact hwrite h
  | some directory =>
      simp only [hdirectory] at h ⊢
      split_ifs at h ⊢ with hnamed
      · obtain ⟨⟨⟩, between, hmake, hrest⟩ := succeeds_bind_iff.1 h
        obtain ⟨after, hother⟩ := hwrite hrest
        exact ⟨after, succeeds_bind_iff.2 ⟨(), between, hmake, hother⟩⟩
      · exact hwrite h

end Store

namespace RecordFormat

structure Restores (format : RecordFormat)
    (pairs records : List Pair) : Prop where
  text : ∀ file, format.read file (.text (format.write pairs)) = .ok records
  file : ∀ path store after, Succeeds (format.save path pairs) store () after →
    Succeeds (format.load path) after records after
  saved : ∀ path store empty, Succeeds (format.save path []) store () empty →
    ∃ after, Succeeds (format.save path pairs) store () after

private theorem restores_of_text {format : RecordFormat}
    {pairs records : List Pair}
    (h : ∀ file, format.read file (.text (format.write pairs)) = .ok records) :
    format.Restores pairs records where
  text := h
  file path _ _ hsave :=
    Store.succeeds_load_iff.2
      ⟨rfl, _, (Store.writes_of_save hsave).read_eq, h path⟩
  saved _ _ _ hsave := Store.exists_save hsave pairs

/-- Pairs come back as they were, and values with null as their key. -/
theorem restores (pairs : List Pair) :
    ((∀ pair ∈ pairs, pair.key.IsWritable 126 ∧ pair.value.IsWritable 126) →
      keyValue.Restores pairs pairs) ∧
    ((∀ pair ∈ pairs, pair.value.IsWritable 127) →
      jsonLines.Restores pairs (pairs.map fun pair =>
        ⟨.null, pair.value⟩)) := by
  constructor
  · intro h
    refine restores_of_text fun file => read_write_intermediate
      (fun pair hpair => ?_) file
    obtain ⟨hkey, hvalue⟩ := h pair hpair
    exact ⟨Json.isWritable_iff.1 hkey, Json.isWritable_iff.1 hvalue⟩
  · intro h
    have hread := @readLines_texts _ _ (fun value => .ok ⟨.null, value⟩)
      (fun pair => ⟨.null, pair.value⟩) _
      (fun pair hpair => Json.isWritable_iff.1 (h pair hpair)) fun pair _ => rfl
    rw [← lines_texts Pair.value] at hread
    exact restores_of_text fun _ => hread

def mixed : List Pair :=
  [⟨.null, .null⟩,
    ⟨.string "\"\\\n\r\t\x01\u2028\u00e9",
      .array [.ofInt 18446744073709551615, .ofInt (-9223372036854775808)]⟩,
    ⟨.ofFields [("a", .null), ("b", .array [.bool true])],
      .number (.float ⟨false, 0x3FE0000000000000, by decide⟩ (by decide))⟩]

private theorem isWritable_mixed : ∀ pair ∈ mixed, pair.key.IsWritable 126 ∧
    pair.value.IsWritable 126 := by
  have hshape : ∀ pair ∈ mixed,
      (pair.key.isStable = true ∧ pair.key.depth ≤ 126) ∧
      pair.value.isStable = true ∧ pair.value.depth ≤ 126 := by decide +kernel
  have hcanonical : ∀ pair ∈ mixed, pair.key.Canonical ∧
      pair.value.Canonical := by
    have hordered : Assoc.Sorted [("a", Json.null),
        ("b", .array [.bool true])] := by
      simp [Assoc.Sorted]
      decide
    simp [mixed, Json.ofInt, Json.ofFields, Json.Canonical, Json.CanonicalItems,
      Json.CanonicalFields, hordered]
  intro pair hpair
  obtain ⟨hkey, hvalue⟩ := hshape pair hpair
  obtain ⟨hcanonical, hcanonical'⟩ := hcanonical pair hpair
  exact ⟨Json.isWritable_iff.2 ⟨hcanonical, hkey.1, hkey.2⟩,
    Json.isWritable_iff.2 ⟨hcanonical', hvalue.1, hvalue.2⟩⟩

theorem restores_mixed :
    (∀ pair ∈ mixed, pair.key.IsWritable 126 ∧ pair.value.IsWritable 126) ∧
    (∀ pair ∈ mixed, pair.value.IsWritable 127) ∧
    jsonLines.Restores mixed (mixed.map fun pair => ⟨.null, pair.value⟩) ∧
    ∃ after, Succeeds (keyValue.save ⟨"out/part-0"⟩ mixed) {} () after ∧
      Succeeds (keyValue.load ⟨"out/part-0"⟩) after mixed after := by
  have hvalues : ∀ pair ∈ mixed, pair.value.IsWritable 127 := fun pair hpair =>
    have hvalue := (isWritable_mixed pair hpair).2
    ⟨hvalue.canonical, hvalue.floats, Nat.le_succ_of_le hvalue.shallow⟩
  obtain ⟨hpairs, hlines⟩ := restores mixed
  have hrestores := hpairs isWritable_mixed
  have hempty : ∃ empty, Succeeds (keyValue.save ⟨"out/part-0"⟩ [])
      {} () empty := ⟨_, rfl⟩
  obtain ⟨empty, hempty⟩ := hempty
  obtain ⟨after, hsave⟩ := hrestores.saved _ _ _ hempty
  exact ⟨isWritable_mixed, hvalues, hlines hvalues, after, hsave,
    hrestores.file _ _ _ hsave⟩

end RecordFormat

end JobChain
