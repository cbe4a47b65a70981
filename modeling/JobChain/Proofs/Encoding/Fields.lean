import JobChain.Proofs.Options.Scopes
import JobChain.Proofs.Records

/-!
# Typed values that come back

What is written of a value is taken back by the decoder of its type, in whatever
number of levels is left. For records this follows from the same for each of
their fields, as long as no two of them have one name; the fields may stand in
any number, and those without a value may be missing.
-/

namespace JobChain

open Document (Fault)

/-! ## Maps -/

namespace SortedMap

variable {κ α : Type} [Ord κ] [Std.TransOrd κ] [Std.LawfulEqOrd κ]
  [DecidableEq κ]

theorem ofList_toList (map : SortedMap κ α) : ofList map.toList = map := by
  refine ext_get? fun key => ?_
  rw [ofList, get?_insertAll, get?_empty, Option.or_none]
  cases hfound : map.get? key with
  | some value =>
      refine Assoc.lastOf?_eq_some_of_unique (get?_eq_some_iff.1 hfound)
        fun entry hentry hkey => ?_
      have hsame : map.get? key = some entry.2 :=
        hkey ▸ get?_eq_some_iff.2 hentry
      exact Option.some.inj (hsame.symm.trans hfound)
  | none =>
      refine Assoc.lastOf?_eq_none fun entry hentry hkey => ?_
      have hsame : map.get? key = some entry.2 :=
        hkey ▸ get?_eq_some_iff.2 hentry
      rw [hfound] at hsame
      cases hsame

end SortedMap

/-! ## Lists -/

private theorem mapM_map_eq_ok {α β ε : Type} {write : α → β}
    {read : β → Except ε α} {values : List α}
    (h : ∀ value ∈ values, read (write value) = .ok value) :
    (values.map write).mapM read = .ok values := by
  induction values with
  | nil => rfl
  | cons value rest ih =>
      obtain ⟨hvalue, hrest⟩ := List.forall_mem_cons.1 h
      rw [List.map_cons, List.mapM_cons, hvalue, ih hrest]
      rfl

namespace Document

private theorem ofItems_eq_map (items : List Json) :
    ofItems items = items.map ofJson := by
  induction items with
  | nil => rfl
  | cons item rest ih => rw [ofItems, ih, List.map_cons]

theorem ofFields_eq_map (fields : List (String × Json)) :
    ofFields fields = fields.map fun field =>
      (some field.1, ofJson field.2) := by
  induction fields with
  | nil => rfl
  | cons field rest ih => rw [ofFields, ih, List.map_cons]

end Document

/-! ## Single values -/

namespace Decoder

variable {α : Type} {decode : Decoder α} {levels : Nat} {written : Json}
  {value : α}

/-- A decoder takes a value back from what is written of it, where so many
levels may be opened. -/
structure TakesBack (decode : Decoder α) (levels : Nat) (written : Json)
    (value : α) : Prop where
  stable : written.isStable = true
  reads : ∀ room, levels ≤ room → decode room (Document.ofJson written) =
      .ok value

theorem TakesBack.ofText (h : decode.TakesBack levels written value)
    (hlevels : levels ≤ Document.maxDepth) :
    decode.ofText written.text = .ok value := by
  simp only [Decoder.ofText, Document.ofChars_text h.stable, h.reads _ hlevels]
  rfl

theorem takesBack_text (text : String) (levels : Nat) :
    Decoder.text.TakesBack levels (.string text) text where
  stable := rfl
  reads _ _ := rfl

theorem takesBack_bool (b : Bool) (levels : Nat) :
    Decoder.bool.TakesBack levels (.bool b) b where
  stable := rfl
  reads _ _ := rfl

theorem takesBack_nat {n : Nat} (h : n < 0x10000000000000000) (levels : Nat) :
    Decoder.nat.TakesBack levels (.ofNat n) n := by
  have hrange : -0x8000000000000000 ≤ (n : Int) ∧
      (n : Int) < 0x10000000000000000 := by omega
  rw [Json.ofNat, Json.ofInt, dif_pos hrange]
  refine ⟨Number.isStable_int n hrange, fun _ _ => ?_⟩
  rfl

theorem takesBack_json {value : Json} (h : value.Returns levels) :
    Decoder.json.TakesBack levels value value where
  stable := h.stable
  reads _ hroom :=
    Document.value_ofJson h.canonical (Nat.le_trans h.shallow hroom)

theorem TakesBack.option (h : decode.TakesBack levels written value)
    (hnull : written ≠ .null) :
    decode.option.TakesBack levels written (some value) where
  stable := h.stable
  reads room hroom := by
    have hsome : some <$> decode room (Document.ofJson written) =
        .ok (some value) := by
      rw [h.reads room hroom]
      rfl
    cases written with
    | null => exact absurd rfl hnull
    | bool | number | string | array | object => exact hsome

theorem takesBack_list {encode : α → Json} {values : List α}
    (h : ∀ value ∈ values, decode.TakesBack levels (encode value) value) :
    decode.list.TakesBack (levels + 1) (.array (values.map encode)) values where
  stable := Json.areStable_iff.2 (List.forall_mem_map.2 fun value hvalue =>
    (h value hvalue).stable)
  reads := by
    rintro (_ | room) hroom
    · cases hroom
    have hitems : (Document.ofItems (values.map encode)).mapM (decode room) =
        .ok values := by
      rw [Document.ofItems_eq_map, List.map_map]
      exact mapM_map_eq_ok fun value hvalue =>
        (h value hvalue).reads room (Nat.le_of_succ_le_succ hroom)
    simp only [Document.ofJson, list, hitems]
    rfl

theorem takesBack_sortedMap {encode : α → Json} {map : SortedMap String α}
    (h : ∀ entry ∈ map.toList,
      decode.TakesBack levels (encode entry.2) entry.2) :
    decode.sortedMap.TakesBack (levels + 1) (.ofMap encode map) map where
  stable := Json.areStableFields_iff.2
    (List.forall_mem_map.2 fun entry hentry => (h entry hentry).stable)
  reads := by
    rintro (_ | room) hroom
    · cases hroom
    simp only [Json.ofMap, Document.ofJson, Document.ofFields_eq_map,
      List.map_map, sortedMap]
    rw [mapM_map_eq_ok]
    · exact congrArg Except.ok (SortedMap.ofList_toList map)
    · intro entry hentry
      simp only [Function.comp,
        (h entry hentry).reads room (Nat.le_of_succ_le_succ hroom)]
      rfl

end Decoder

/-! ## Records -/

namespace Fields

variable {α β : Type} {levels : Nat} {names : List String}
  {written : List (String × Json)}

/-- Fields that are written are taken one after the other. -/
inductive Takes (fields : Fields α) (room : Nat) :
    List (String × Json) → fields.State → fields.State → Prop where
  | nil (state : fields.State) : Takes fields room [] state state
  | cons {key : String} {value : Json} {rest : List (String × Json)}
      {state next last : fields.State}
      (hfirst : fields.take room key (Document.ofJson value) state =
        some (.ok next))
      (hrest : Takes fields room rest next last) :
      Takes fields room ((key, value) :: rest) state last

theorem Takes.append {fields : Fields α} {room : Nat}
    {first second : List (String × Json)} {state next last : fields.State}
    (hfirst : fields.Takes room first state next)
    (hsecond : fields.Takes room second next last) :
    fields.Takes room (first ++ second) state last := by
  induction hfirst with
  | nil => exact hsecond
  | cons hfield _ ih => exact .cons hfield (ih hsecond)

theorem Takes.takeAll {fields : Fields α} {room : Nat}
    {state last : fields.State} (h : fields.Takes room written state last) :
    fields.takeAll room (Document.ofFields written) state = .ok last := by
  induction h with
  | nil => rfl
  | cons hfield _ ih =>
      rw [Document.ofFields, Fields.takeAll]
      simp only [hfield]
      exact ih

theorem Takes.map {fields : Fields α} {room : Nat} {state last : fields.State}
    (f : α → β) (h : fields.Takes room written state last) :
    (f <$> fields).Takes room written state last := by
  induction h with
  | nil state => exact .nil _
  | cons hfirst _ ih => exact .cons hfirst ih

theorem take_seq (first : Fields (α → β)) (second : Fields α) (room : Nat)
    (key : String) (document : Document) (left : first.State)
    (right : second.State) :
    (first <*> second).take room key document (left, right) =
      match first.take room key document left with
      | some result => some ((fun left => (left, right)) <$> result)
      | none => (second.take room key document right).map fun result =>
          (fun right => (left, right)) <$> result :=
  rfl

private theorem Takes.inFirst {first : Fields (α → β)} {room : Nat}
    {state last : first.State} (h : first.Takes room written state last)
    (second : Fields α) (beside : second.State) :
    (first <*> second).Takes room written (state, beside) (last, beside) := by
  induction h with
  | nil state => exact .nil _
  | @cons key value rest state next last hfirst _ ih =>
      refine .cons ?_ ih
      rw [take_seq, hfirst]
      rfl

private theorem Takes.inSecond {first : Fields (α → β)} {second : Fields α}
    {room : Nat} {state last : second.State}
    (h : second.Takes room written state last)
    (hignores : ∀ field ∈ written, ∀ document beside,
      first.take room field.1 document beside = none) (beside : first.State) :
    (first <*> second).Takes room written (beside, state) (beside, last) := by
  induction h with
  | nil state => exact .nil _
  | @cons key value rest state next last hfirst _ ih =>
      obtain ⟨hkey, hothers⟩ := List.forall_mem_cons.1 hignores
      refine .cons ?_ (ih hothers)
      rw [take_seq, hkey, hfirst]
      rfl

/-- The fields of some names take a value back from what is written of it under
these. -/
structure TakesBack (fields : Fields α) (levels : Nat) (names : List String)
    (written : List (String × Json)) (value : α) : Prop where
  named : ∀ field ∈ written, field.1 ∈ names
  stable : ∀ field ∈ written, field.2.isStable = true
  ignores : ∀ {room key document state}, key ∉ names →
    fields.take room key document state = none
  reads : ∀ room, levels ≤ room →
    ∃ last, fields.Takes room written fields.start last ∧
      fields.finish last = .ok value

private theorem take_single_of_ne {name key : String} {decode : Decoder α}
    {missing short : Except Fault α} {room : Nat} {document : Document}
    {state : Option α} (h : key ∉ [name]) :
    (single name decode missing short).take room key document state = none := by
  have hne : key ≠ name := by simpa using h
  cases state <;> simp [single, hne]

theorem takesBack_single (name : String) {decode : Decoder α}
    (missing short : Except Fault α) {written : Json} {value : α}
    (h : decode.TakesBack levels written value) :
    (single name decode missing short).TakesBack levels [name]
      [(name, written)] value where
  named := by simp
  stable := by simpa using h.stable
  ignores := take_single_of_ne
  reads room hroom := by
    refine ⟨some value, .cons ?_ (.nil _), rfl⟩
    simp only [single, if_pos, h.reads room hroom]
    rfl

theorem takesBack_required (name : String) {decode : Decoder α} {written : Json}
    {value : α} (h : decode.TakesBack levels written value) :
    (required name decode).TakesBack levels [name] [(name, written)] value :=
  takesBack_single name _ _ h

theorem takesBack_optional (name : String) {decode : Decoder α}
    {encode : α → Json} {value? : Option α}
    (h : ∀ value ∈ value?, decode.TakesBack levels (encode value) value ∧
      encode value ≠ .null) :
    (optional name decode.option none).TakesBack levels [name]
      (optionalField name encode value?) value? := by
  cases value? with
  | none =>
      exact ⟨by
        simp [optionalField], by simp [optionalField], take_single_of_ne,
      fun _ _ => ⟨none, .nil _, rfl⟩⟩
  | some value =>
      obtain ⟨htakes, hnull⟩ := h value rfl
      exact takesBack_single name _ _ (htakes.option hnull)

theorem TakesBack.map {fields : Fields α} {value : α} (f : α → β)
    (h : fields.TakesBack levels names written value) :
    (f <$> fields).TakesBack levels names written (f value) where
  named := h.named
  stable := h.stable
  ignores := h.ignores
  reads room hroom := by
    obtain ⟨last, htakes, hfinish⟩ := h.reads room hroom
    refine ⟨last, htakes.map f, ?_⟩
    change f <$> fields.finish last = _
    rw [hfinish]
    rfl

theorem TakesBack.seq {first : Fields (α → β)} {second : Fields α} {f : α → β}
    {value : α} {names' : List String} {written' : List (String × Json)}
    (hfirst : first.TakesBack levels names written f)
    (hsecond : second.TakesBack levels names' written' value)
    (hapart : ∀ name ∈ names', name ∉ names) :
    (first <*> second).TakesBack levels (names ++ names') (written ++ written')
      (f value) where
  named field hfield := by
    rcases List.mem_append.1 hfield with hfield | hfield
    · exact List.mem_append_left _ (hfirst.named field hfield)
    · exact List.mem_append_right _ (hsecond.named field hfield)
  stable field hfield := by
    rcases List.mem_append.1 hfield with hfield | hfield
    · exact hfirst.stable field hfield
    · exact hsecond.stable field hfield
  ignores := by
    rintro room key document ⟨left, right⟩ hkey
    obtain ⟨hleft, hright⟩ := not_or.1 (List.mem_append.not.1 hkey)
    rw [take_seq, hfirst.ignores hleft, hsecond.ignores hright]
    rfl
  reads room hroom := by
    obtain ⟨left, hleft, hf⟩ := hfirst.reads room hroom
    obtain ⟨right, hright, hvalue⟩ := hsecond.reads room hroom
    have hignores : ∀ field ∈ written', ∀ document state,
        first.take room field.1 document state = none := fun field hfield _ _ =>
      hfirst.ignores (hapart _ (hsecond.named field hfield))
    refine ⟨(left, right),
      (hleft.inFirst second _).append (hright.inSecond hignores left), ?_⟩
    change (do
      let f ← first.finish left
      let value ← second.finish right
      .ok (f value)) = _
    rw [hf, hvalue]
    rfl

theorem TakesBack.decode {fields : Fields α} {value : α}
    (h : fields.TakesBack levels names written value) :
    fields.decode.TakesBack (levels + 1) (.ofFields written) value where
  stable := Json.areStableFields_iff.2 h.stable
  reads := by
    rintro (_ | room) hroom
    · cases hroom
    obtain ⟨last, htakes, hfinish⟩ :=
      h.reads room (Nat.le_of_succ_le_succ hroom)
    simp only [Json.ofFields, Document.ofJson, Fields.decode, htakes.takeAll]
    exact hfinish

end Fields

end JobChain
