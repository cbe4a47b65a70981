import JobChain.Criterion
import JobChain.Proofs.Encoding.Fields
import JobChain.Proofs.Json.Integral

/-!
# Criteria that come back

A criterion comes back from its text if the value in it does one level further
in. A criterion that was read from a text holds such a value, whatever the text
was like, unless one of its floating-point numbers is not read as it is written.
-/

namespace JobChain

/-! ## What decoders yield -/

namespace Document

mutual

private theorem depth_value_le : (document : Document) → ∀ {room json},
    document.value room = .ok json →
    json.depth ≤ room
  | .null, _, _, h | .bool _, _, _, h | .number (some _), _, _,
      h | .string (some _), _, _, h => by
      cases h
      exact Nat.zero_le _
  | .number none, _, _, h | .string none, _, _, h | .broken, _, _,
      h => by cases h
  | .array items closed, room, json, h => by
      cases room with
      | zero => cases h
      | succ room =>
          simp only [value, bind_eq_ok_iff] at h
          obtain ⟨values, hvalues, h⟩ := h
          split at h
          · cases h
            rw [Json.depth, Nat.add_comm, Nat.add_le_add_iff_right,
              Json.depthItems_le_iff]
            exact depth_values_le items hvalues
          · cases h
  | .object fields closed, room, json, h => by
      cases room with
      | zero => cases h
      | succ room =>
          simp only [value, bind_eq_ok_iff] at h
          obtain ⟨sorted, hsorted, h⟩ := h
          split at h
          · cases h
            rw [Json.depth, Nat.add_comm, Nat.add_le_add_iff_right,
              Json.depthFields_le_iff]
            exact depth_fieldValues_le fields (by simp) hsorted
          · cases h

private theorem depth_values_le : (items : List Document) → ∀ {room values},
    Document.values room items = .ok values → ∀ value ∈ values,
    value.depth ≤ room
  | [], _, _, h => by
      cases h
      simp
  | item :: rest, room, values, h => by
      simp only [Document.values, bind_eq_ok_iff] at h
      obtain ⟨first, hfirst, others, hothers, h⟩ := h
      cases h
      exact List.forall_mem_cons.2 ⟨depth_value_le item hfirst,
        depth_values_le rest hothers⟩

private theorem depth_fieldValues_le :
    (fields : List (Option String × Document)) → ∀ {room sorted values},
    (∀ field ∈ sorted, field.2.depth ≤ room) →
    fieldValues room sorted fields = .ok values →
    ∀ field ∈ values, field.2.depth ≤ room
  | [], _, _, _, hfields, h => by
      cases h
      exact hfields
  | (none, _) :: _, _, _, _, _, h => by cases h
  | (some key, document) :: rest, room, sorted, values, hfields, h => by
      simp only [fieldValues, bind_eq_ok_iff] at h
      obtain ⟨value, hvalue, h⟩ := h
      exact depth_fieldValues_le rest
        (@Assoc.forall_insert _ (fun value : Json => value.depth ≤ room) _ _ _
          (depth_value_le document hvalue) hfields) h

end

end Document

namespace Fields

variable {α β : Type} {room : Nat}

/-- Whatever the fields are read from, what they give is good. -/
def Yields (fields : Fields α) (room : Nat) (good : α → Prop) : Prop :=
  ∃ holds : fields.State → Prop, holds fields.start ∧
    (∀ key document state next, holds state →
      fields.take room key document state = some (.ok next) → holds next) ∧
    (∀ closed documents state rest,
      fields.items room closed documents = .ok (state, rest) → holds state) ∧
    ∀ state value, holds state → fields.finish state = .ok value → good value

private theorem map_eq_ok {ε : Type} {f : α → β} {result : Except ε α}
    {value : β} (h : f <$> result = .ok value) : ∃ read, result = .ok read ∧
    f read = value := by
  cases result with
  | error _ => cases h
  | ok read =>
      cases h
      exact ⟨read, rfl, rfl⟩

private theorem yields_required (name : String) (decode : Decoder α) :
    (required name decode).Yields room fun value => ∃ document,
    decode room document = .ok value := by
  refine ⟨fun state : Option α => ∀ value ∈ state, ∃ document,
    decode room document = .ok value,
    by simp [required, single], ?_, ?_, ?_⟩
  · rintro key document (_ | old) next - h
    · simp only [required, single] at h
      split_ifs at h
      obtain ⟨value, hread, rfl⟩ := map_eq_ok (Option.some.inj h)
      rintro _ ⟨⟩
      exact ⟨document, hread⟩
    · simp only [required, single] at h
      split_ifs at h
      cases h
  · rintro closed (_ | ⟨document, rest⟩) state left h
    · simp only [required, single] at h
      split_ifs at h
      cases h
    · obtain ⟨value, hread, h⟩ := bind_eq_ok_iff.1 h
      cases h
      rintro _ ⟨⟩
      exact ⟨document, hread⟩
  · rintro (_ | found) value hstate h
    · cases h
    · cases h
      exact hstate _ rfl

theorem Yields.map {fields : Fields α} {good : α → Prop} {good' : β → Prop}
    {f : α → β} (h : fields.Yields room good)
    (hgood : ∀ value, good value → good' (f value)) :
    (f <$> fields).Yields room good' := by
  obtain ⟨holds, hstart, htake, hitems, hfinish⟩ := h
  refine ⟨holds, hstart, htake, hitems, fun state value hstate h => ?_⟩
  obtain ⟨read, hread, rfl⟩ := map_eq_ok h
  exact hgood read (hfinish state read hstate hread)

theorem Yields.seq {first : Fields (α → β)} {second : Fields α}
    {goodF : (α → β) → Prop} {goodV : α → Prop} {good : β → Prop}
    (hfirst : first.Yields room goodF) (hsecond : second.Yields room goodV)
    (hgood : ∀ f value, goodF f → goodV value → good (f value)) :
    (first <*> second).Yields room good := by
  obtain ⟨holds, hstart, htake, hitems, hfinish⟩ := hfirst
  obtain ⟨holds', hstart', htake', hitems', hfinish'⟩ := hsecond
  refine ⟨fun state : first.State × second.State => holds state.1 ∧
    holds' state.2, ⟨hstart, hstart'⟩, ?_, ?_, ?_⟩
  · rintro key document ⟨left, right⟩ next ⟨hleft, hright⟩ h
    rw [take_seq] at h
    split at h
    · rename_i result hresult
      cases result with
      | error fault => cases h
      | ok left' =>
          cases h
          exact ⟨htake _ _ _ _ hleft hresult, hright⟩
    · obtain ⟨result, hresult, h⟩ := Option.map_eq_some_iff.1 h
      cases result with
      | error fault => cases h
      | ok right' =>
          cases h
          exact ⟨hleft, htake' _ _ _ _ hright hresult⟩
  · intro closed documents state rest h
    obtain ⟨⟨left, others⟩, hleft, h⟩ := bind_eq_ok_iff.1 h
    obtain ⟨⟨right, others'⟩, hright, h⟩ := bind_eq_ok_iff.1 h
    cases h
    exact ⟨hitems _ _ _ _ hleft, hitems' _ _ _ _ hright⟩
  · rintro ⟨left, right⟩ value ⟨hleft, hright⟩ h
    obtain ⟨f, hf, h⟩ := bind_eq_ok_iff.1 h
    obtain ⟨read, hread, h⟩ := bind_eq_ok_iff.1 h
    cases h
    exact hgood f read (hfinish _ _ hleft hf) (hfinish' _ _ hright hread)

private theorem takeAll_holds {fields : Fields α} {holds : fields.State → Prop}
    (htake : ∀ key document state next, holds state →
      fields.take room key document state = some (.ok next) → holds next)
    {entries : List (Option String × Document)} {state last : fields.State}
    (hstate : holds state)
    (h : fields.takeAll room entries state = .ok last) : holds last := by
  induction entries generalizing state with
  | nil =>
      cases h
      exact hstate
  | cons entry rest ih =>
      obtain ⟨_ | key, document⟩ := entry
      · cases h
      · rw [takeAll] at h
        split at h
        · rename_i result hresult
          obtain ⟨next, rfl, h⟩ := bind_eq_ok_iff.1 h
          exact ih (htake _ _ _ _ hstate hresult) h
        · split_ifs at h
          exact ih hstate h

theorem Yields.decode {fields : Fields α} {good : α → Prop}
    (h : fields.Yields room good) {document : Document} {value : α}
    (hread : fields.decode (room + 1) document = .ok value) : good value := by
  obtain ⟨holds, hstart, htake, hitems, hfinish⟩ := h
  cases document with
  | object entries closed =>
      obtain ⟨state, hstate, hread⟩ := bind_eq_ok_iff.1 hread
      split_ifs at hread
      exact hfinish _ _ (takeAll_holds htake hstart hstate) hread
  | array items closed =>
      obtain ⟨⟨state, rest⟩, hstate, hread⟩ := bind_eq_ok_iff.1 hread
      simp only at hread
      split_ifs at hread
      exact hfinish _ _ (hitems _ _ _ _ hstate) hread
  | null | bool | number | string | broken => cases hread

end Fields

/-! ## Criteria -/

namespace Criterion

open Document (Fault)

variable {levels : Nat} {parts : List (String × Json)}

private theorem takesBack_kind (kind : Kind) (levels : Nat) :
    Kind.decoder.TakesBack levels (nameIn Kind.names kind) kind := by
  cases kind <;> exact ⟨rfl, fun _ _ => rfl⟩

private theorem takesBack_comparison (comparison : Comparison) (levels : Nat) :
    comparisonDecoder.TakesBack levels (toJson.symbolOf comparison)
      comparison := by
  cases comparison <;> exact ⟨rfl, fun _ _ => rfl⟩

/-- The kind is taken out of the fields, which have to be values. -/
theorem takeKind_ofFields {room : Nat} {kind? : Option Kind}
    (hkind : ∀ part ∈ parts, part.1 ≠ "kind")
    (hparts : ∀ part ∈ parts, part.2.Returns room) :
    takeKind room kind? (Document.ofFields parts) = .ok kind? := by
  induction parts with
  | nil => rfl
  | cons part rest ih =>
      obtain ⟨key, value⟩ := part
      obtain ⟨hkey, hkeys⟩ := List.forall_mem_cons.1 hkind
      obtain ⟨hvalue, hvalues⟩ := List.forall_mem_cons.1 hparts
      rw [Document.ofFields, takeKind, if_neg hkey,
        Document.value_ofJson hvalue.canonical hvalue.shallow]
      exact ih hkeys hvalues

private theorem filter_ofFields (hkind : ∀ part ∈ parts, part.1 ≠ "kind") :
    (Document.ofFields parts).filter (fun field => field.1 ≠ some "kind") =
      Document.ofFields parts := by
  rw [List.filter_eq_self, Document.ofFields_eq_map, List.forall_mem_map]
  intro part hpart
  simpa using hkind part hpart

private theorem takesBack_of_parts {kind : Kind} {names : List String}
    {criterion : Criterion}
    (h : kind.fields.TakesBack levels names parts criterion)
    (hapart : "kind" ∉ names) (hparts : ∀ part ∈ parts, part.2.Returns levels) :
    decoder.TakesBack (levels + 1)
      (.ofFields (("kind", nameIn Kind.names kind) :: parts)) criterion where
  stable := Json.areStableFields_iff.2
    (List.forall_mem_cons.2 ⟨(takesBack_kind kind 0).stable, h.stable⟩)
  reads := by
    rintro (_ | room) hroom
    · cases hroom
    have hlevels : levels ≤ room := Nat.le_of_succ_le_succ hroom
    have hkeys : ∀ part ∈ parts, part.1 ≠ "kind" := by
      rintro part hpart hkey
      exact hapart (hkey ▸ h.named part hpart)
    have hkind :
        takeKind room none
          (Document.ofFields (("kind", nameIn Kind.names kind) :: parts)) =
        .ok (some kind) := by
      rw [Document.ofFields, takeKind, if_pos rfl,
        (takesBack_kind kind 0).reads room (Nat.zero_le _)]
      exact takeKind_ofFields hkeys fun part hpart =>
        ⟨(hparts part hpart).canonical, (hparts part hpart).stable,
          Nat.le_trans (hparts part hpart).shallow hlevels⟩
    have hothers :
        (Document.ofFields (("kind", nameIn Kind.names kind) :: parts)).filter
          (fun field => field.1 ≠ some "kind") = Document.ofFields parts := by
      rw [Document.ofFields, List.filter_cons_of_neg (by simp),
        filter_ofFields hkeys]
    simp only [Json.ofFields, Document.ofJson, decoder, hkind, hothers]
    exact h.decode.reads (room + 1) hroom

def value? : Criterion → Option Json
  | .propertyEquals _ value | .propertyCompare _ _ value => some value
  | _ => none

open Fields in
theorem takesBack {criterion : Criterion}
    (h : ∀ value ∈ criterion.value?, value.Returns levels) :
    decoder.TakesBack (levels + 1) criterion.toJson criterion := by
  have htext : ∀ text, (Json.string text).Returns levels := fun text =>
    Json.returns_of_flat rfl rfl levels
  cases criterion with
  | constant value =>
      have hfields : Kind.constant.fields.TakesBack levels ["value"] _ _ :=
        (takesBack_required "value" (Decoder.takesBack_bool value levels)).map
          constant
      exact takesBack_of_parts hfields (by decide)
        (List.forall_mem_singleton.2 (Json.returns_of_flat rfl rfl levels))
  | hasLabel label =>
      have hfields : Kind.hasLabel.fields.TakesBack levels ["label"] _ _ :=
        (takesBack_required "label" (Decoder.takesBack_text label levels)).map
          hasLabel
      exact takesBack_of_parts hfields
        (by decide) (List.forall_mem_singleton.2 (htext label))
  | hasProperty key =>
      have hfields : Kind.hasProperty.fields.TakesBack levels ["key"] _ _ :=
        (takesBack_required "key" (Decoder.takesBack_text key levels)).map
          hasProperty
      exact takesBack_of_parts hfields
        (by decide) (List.forall_mem_singleton.2 (htext key))
  | propertyEquals key value =>
      have hkey := takesBack_required "key" (Decoder.takesBack_text key levels)
      have hvalue :=
        takesBack_required "value" (Decoder.takesBack_json (h value rfl))
      have hfields : Kind.propertyEquals.fields.TakesBack levels ["key",
          "value"] _ _ :=
        (hkey.map propertyEquals).seq hvalue (by decide)
      exact takesBack_of_parts hfields (by decide)
        (List.forall_mem_cons.2
          ⟨htext key, List.forall_mem_singleton.2 (h value rfl)⟩)
  | propertyCompare key comparison value =>
      have hkey := takesBack_required "key" (Decoder.takesBack_text key levels)
      have hcomparison :=
        takesBack_required "op" (takesBack_comparison comparison levels)
      have hvalue :=
        takesBack_required "value" (Decoder.takesBack_json (h value rfl))
      have hfields : Kind.propertyCompare.fields.TakesBack levels ["key", "op",
          "value"] _ _ :=
        ((hkey.map propertyCompare).seq hcomparison (by decide)).seq hvalue
          (by decide)
      have hsymbol : (toJson.symbolOf comparison).Returns levels := by
        cases comparison <;> exact htext _
      exact takesBack_of_parts hfields
        (by decide) (List.forall_mem_cons.2 ⟨htext key,
        List.forall_mem_cons.2
          ⟨hsymbol, List.forall_mem_singleton.2 (h value rfl)⟩⟩)
  | scripted source =>
      have hfields : Kind.scripted.fields.TakesBack levels ["source"] _ _ :=
        (takesBack_required "source" (Decoder.takesBack_text source levels)).map
          scripted
      exact takesBack_of_parts hfields
        (by decide) (List.forall_mem_singleton.2 (htext source))

theorem decode_encode {criterion : Criterion}
    (h : ∀ value ∈ criterion.value?, value.Returns (Document.maxDepth - 1)) :
    decode criterion.encode = .ok criterion := by
  rw [decode, encode, (takesBack h).ofText (by decide)]
  rfl

private theorem yields_value (kind : Kind) (room : Nat) :
    kind.fields.Yields room fun criterion =>
    ∀ value ∈ criterion.value?, ∃ document : Document,
      document.value room = .ok value := by
  cases kind with
  | constant | hasLabel | hasProperty | scripted =>
      refine (Fields.yields_required _ _).map fun _ _ => ?_
      rintro _ ⟨⟩
  | propertyEquals =>
      have hkey :
          (propertyEquals <$> Fields.required "key" Decoder.text).Yields room
            fun f => ∃ key, f = propertyEquals key :=
        (Fields.yields_required _ _).map fun key _ => ⟨key, rfl⟩
      refine hkey.seq (Fields.yields_required _ _) ?_
      rintro _ value ⟨key, rfl⟩ hvalue _ ⟨⟩
      exact hvalue
  | propertyCompare =>
      have hkey :
          (propertyCompare <$> Fields.required "key" Decoder.text).Yields room
            fun f => ∃ key, f = propertyCompare key :=
        (Fields.yields_required _ _).map fun key _ => ⟨key, rfl⟩
      have hcomparison : (propertyCompare <$> Fields.required "key" Decoder.text
          <*> Fields.required "op" comparisonDecoder).Yields room
            fun f => ∃ key comparison, f = propertyCompare key comparison := by
        refine hkey.seq (Fields.yields_required _ _) ?_
        rintro _ comparison ⟨key, rfl⟩ -
        exact ⟨key, comparison, rfl⟩
      refine hcomparison.seq (Fields.yields_required _ _) ?_
      rintro _ value ⟨key, comparison, rfl⟩ hvalue _ ⟨⟩
      exact hvalue

private theorem value_of_decoder {room : Nat} {document : Document}
    {criterion : Criterion} (h : decoder (room + 1) document = .ok criterion) :
    ∀ value ∈ criterion.value?, ∃ document : Document,
      document.value room = .ok value := by
  cases document with
  | object entries closed =>
      obtain ⟨kind?, -, h⟩ := bind_eq_ok_iff.1 h
      split_ifs at h
      cases kind? with
      | none => cases h
      | some kind => exact (yields_value kind room).decode h
  | array items closed =>
      cases items with
      | nil => cases h
      | cons first rest =>
          obtain ⟨kind, -, h⟩ := bind_eq_ok_iff.1 h
          obtain ⟨values, -, h⟩ := bind_eq_ok_iff.1 h
          split_ifs at h
          exact (yields_value kind room).decode h
  | null | bool | number | string | broken => cases h

/-- What a criterion holds that was read from a text is in order, and leaves
room for the criterion. -/
theorem canonical_of_decode {text : String} {criterion : Criterion}
    (h : decode text = .ok criterion) :
    ∀ value ∈ criterion.value?, value.Canonical ∧
      value.depth ≤ Document.maxDepth - 1 := by
  intro value hvalue
  have hread : decoder.ofText text = .ok criterion := by
    rw [decode] at h
    cases hread : decoder.ofText text with
    | error fault =>
        rw [hread] at h
        cases h
    | ok read =>
        rw [hread] at h
        cases h
        rfl
  obtain ⟨whole, hwhole⟩ := Decoder.exists_of_ofText hread
  obtain ⟨document, hfound⟩ := value_of_decoder hwhole value hvalue
  exact ⟨Document.canonical_value document hfound,
    Document.depth_value_le document hfound⟩

end Criterion

end JobChain
