import JobChain.Proofs.Json.Documents
import JobChain.Proofs.Store.Steps
import JobChain.RecordFormat

/-!
# Values and records that are read back

A canonical value whose numbers are read as they are written comes back from its
text, unless it is nested too deeply. Records of such values come back from a
file in the format between jobs, which nests each of them one level deeper.
-/

namespace JobChain

/-! ## Fields in order -/

private theorem Assoc.insert_eq_append {α : Type} {key : String} {value : α}
    {entries : List (String × α)}
    (h : ∀ entry ∈ entries, compare entry.1 key = .lt) :
    insert key value entries = entries ++ [(key, value)] := by
  induction entries with
  | nil => rfl
  | cons entry rest ih =>
      obtain ⟨hentry, hrest⟩ := List.forall_mem_cons.1 h
      rw [insert, Std.OrientedCmp.gt_of_lt hentry]
      simp only [ih hrest, List.cons_append]

namespace Json

theorem canonicalItems_iff {items : List Json} :
    CanonicalItems items ↔ ∀ item ∈ items, item.Canonical := by
  induction items with
  | nil => simp [CanonicalItems]
  | cons item rest ih => simp [CanonicalItems, ih]

theorem canonicalFields_iff {fields : List (String × Json)} :
    CanonicalFields fields ↔ ∀ field ∈ fields, field.2.Canonical := by
  induction fields with
  | nil => simp [CanonicalFields]
  | cons field rest ih => simp [CanonicalFields, ih]

theorem depthItems_le_iff {items : List Json} {room : Nat} :
    depthItems items ≤ room ↔ ∀ item ∈ items, item.depth ≤ room := by
  induction items with
  | nil => simp [depthItems]
  | cons item rest ih => rw [depthItems, Nat.max_le, ih, List.forall_mem_cons]

theorem depthFields_le_iff {fields : List (String × Json)} {room : Nat} :
    depthFields fields ≤ room ↔ ∀ field ∈ fields, field.2.depth ≤ room := by
  induction fields with
  | nil => simp [depthFields]
  | cons field rest ih => rw [depthFields, Nat.max_le, ih, List.forall_mem_cons]

end Json

/-! ## Values of documents -/

namespace Document

private theorem values_ofItems {items : List Json} {room : Nat}
    (h : ∀ item ∈ items, (ofJson item).value room = .ok item) :
    values room (ofItems items) = .ok items := by
  induction items with
  | nil => rfl
  | cons item rest ih =>
      obtain ⟨hitem, hrest⟩ := List.forall_mem_cons.1 h
      rw [ofItems, values, hitem, ih hrest]
      rfl

private theorem fieldValues_ofFields {sorted fields : List (String × Json)}
    {room : Nat} (hsorted : Assoc.Sorted (sorted ++ fields))
    (h : ∀ field ∈ fields, (ofJson field.2).value room = .ok field.2) :
    fieldValues room sorted (ofFields fields) = .ok (sorted ++ fields) := by
  induction fields generalizing sorted with
  | nil => rw [ofFields, fieldValues, List.append_nil]
  | cons field rest ih =>
      obtain ⟨key, value⟩ := field
      obtain ⟨hvalue, hrest⟩ := List.forall_mem_cons.1 h
      have hbefore : ∀ entry ∈ sorted, compare entry.1 key = .lt :=
        fun entry hentry =>
          (List.pairwise_append.1 hsorted).2.2 entry hentry (key,
            value) List.mem_cons_self
      rw [List.append_cons] at hsorted
      rw [ofFields, fieldValues, hvalue, List.append_cons, ← ih hsorted hrest,
        ← Assoc.insert_eq_append hbefore]
      rfl

/-- The document of a value stands for it, where there is room for its
levels. -/
theorem value_ofJson {value : Json} (hcanonical : value.Canonical) {room : Nat}
    (hdepth : value.depth ≤ room) : (ofJson value).value room = .ok value := by
  induction value using Json.induct generalizing room with
  | null | bool | number | string => rfl
  | array items ih =>
      rw [Json.depth, Nat.add_comm] at hdepth
      obtain ⟨room, rfl⟩ :=
        Nat.exists_eq_add_of_lt (Nat.lt_of_lt_of_le (Nat.succ_pos _) hdepth)
      have hroom := Json.depthItems_le_iff.1 (Nat.le_of_succ_le_succ hdepth)
      have hitems := Json.canonicalItems_iff.1 hcanonical
      rw [ofJson, Document.value,
        values_ofItems fun item hitem =>
          ih item hitem (hitems item hitem) (hroom item hitem)]
      rfl
  | object fields ih =>
      rw [Json.depth, Nat.add_comm] at hdepth
      obtain ⟨room, rfl⟩ :=
        Nat.exists_eq_add_of_lt (Nat.lt_of_lt_of_le (Nat.succ_pos _) hdepth)
      have hroom := Json.depthFields_le_iff.1 (Nat.le_of_succ_le_succ hdepth)
      obtain ⟨hsorted, hcanonical⟩ := hcanonical
      have hfields := Json.canonicalFields_iff.1 hcanonical
      rw [ofJson, Document.value, @fieldValues_ofFields [] _ _ hsorted
        fun field hfield =>
          ih field hfield (hfields field hfield) (hroom field hfield)]
      rfl

private theorem exists_value_of_values {items values : List Json} {room : Nat}
    (h : Document.values room (ofItems items) = .ok values) :
    ∀ item ∈ items, ∃ read, (ofJson item).value room = .ok read := by
  induction items generalizing values with
  | nil => simp
  | cons item rest ih =>
      rw [ofItems, Document.values] at h
      cases hitem : (ofJson item).value room with
      | error fault => simp [hitem, Bind.bind, Except.bind] at h
      | ok read =>
          cases hrest : Document.values room (ofItems rest) with
          | error fault => simp [hitem, hrest, Bind.bind, Except.bind] at h
          | ok others => exact List.forall_mem_cons.2 ⟨⟨read, hitem⟩, ih hrest⟩

private theorem exists_value_of_fieldValues
    {sorted fields values : List (String × Json)} {room : Nat}
    (h : fieldValues room sorted (ofFields fields) = .ok values) :
    ∀ field ∈ fields, ∃ read, (ofJson field.2).value room = .ok read := by
  induction fields generalizing sorted with
  | nil => simp
  | cons field rest ih =>
      rw [ofFields, fieldValues] at h
      cases hfield : (ofJson field.2).value room with
      | error fault => simp [hfield, Bind.bind, Except.bind] at h
      | ok read =>
          rw [hfield] at h
          exact List.forall_mem_cons.2 ⟨⟨read, hfield⟩, ih h⟩

/-- A document stands for no value if there is no room for its levels. -/
theorem depth_le_of_value {value read : Json} {room : Nat}
    (h : (ofJson value).value room = .ok read) : value.depth ≤ room := by
  induction value using Json.induct generalizing room read with
  | null | bool | number | string => exact Nat.zero_le _
  | array items ih =>
      rw [ofJson] at h
      cases room with
      | zero => cases h
      | succ room =>
          rw [Document.value] at h
          cases hitems : values room (ofItems items) with
          | error fault => simp [hitems, Bind.bind, Except.bind] at h
          | ok reads =>
              rw [Json.depth, Nat.add_comm, Nat.add_le_add_iff_right,
                Json.depthItems_le_iff]
              intro item hitem
              obtain ⟨_, hread⟩ := exists_value_of_values hitems item hitem
              exact ih item hitem hread
  | object fields ih =>
      rw [ofJson] at h
      cases room with
      | zero => cases h
      | succ room =>
          rw [Document.value] at h
          cases hfields : fieldValues room [] (ofFields fields) with
          | error fault => simp [hfields, Bind.bind, Except.bind] at h
          | ok reads =>
              rw [Json.depth, Nat.add_comm, Nat.add_le_add_iff_right,
                Json.depthFields_le_iff]
              intro field hfield
              obtain ⟨_, hread⟩ :=
                exists_value_of_fieldValues hfields field hfield
              exact ih field hfield hread

end Document

/-! ## Texts of values -/

namespace Json

/-- What a value needs to come back from its text when some levels may be
opened: it is canonical, its numbers are read as they are written, and it has no
more levels. -/
structure Returns (room : Nat) (value : Json) : Prop where
  canonical : value.Canonical
  stable : value.isStable = true
  shallow : value.depth ≤ room

theorem returns_of_flat {value : Json} (hflat : value.depth = 0)
    (hstable : value.isStable = true) (room : Nat) : value.Returns room where
  canonical := by
    cases value with
    | array items => simp [depth] at hflat
    | object fields => simp [depth] at hflat
    | null | bool | number | string => trivial
  stable := hstable
  shallow := hflat ▸ Nat.zero_le room

private theorem ofText?_text {value : Json}
    (h : value.Returns Document.maxDepth) :
    ofText? value.text = some value := by
  have hvalue := Document.value_ofJson h.canonical h.shallow
  simp only [ofText?, Decoder.ofText, Document.ofChars_text h.stable,
    Decoder.json, hvalue]
  rfl

private theorem depth_le_of_ofText? {value read : Json}
    (hstable : value.isStable = true) (h : ofText? value.text = some read) :
    value.depth ≤ Document.maxDepth := by
  cases hvalue : (Document.ofJson value).value Document.maxDepth with
  | error fault =>
      simp [ofText?, Decoder.ofText, Document.ofChars_text hstable,
        Decoder.json, hvalue, Bind.bind, Except.bind, Except.toOption] at h
  | ok found => exact Document.depth_le_of_value hvalue

end Json

/-! ## Characters of texts -/

namespace Text

def IsPlain (chars : List Char) : Prop := ∀ c ∈ chars, 32 ≤ c.toNat

private theorem isPlain_nil : IsPlain [] := by simp [IsPlain]

private theorem isPlain_cons {c : Char} {chars : List Char} :
    IsPlain (c :: chars) ↔ 32 ≤ c.toNat ∧ IsPlain chars := List.forall_mem_cons

private theorem isPlain_append {front back : List Char} :
    IsPlain (front ++ back) ↔ IsPlain front ∧ IsPlain back :=
  List.forall_mem_append

private theorem isPlain_natChars (n : Nat) : IsPlain (natChars n) := fun c hc =>
  Nat.le_trans
    (by decide) (Char.isDigit_iff_toNat.1 (isDigit_of_mem_natChars hc)).1

private theorem isPlain_replicate {c : Char} (h : 32 ≤ c.toNat) (n : Nat) :
    IsPlain (List.replicate n c) := fun d hd => by
  rwa [List.eq_of_mem_replicate hd]

end Text

open Text (IsPlain isPlain_cons isPlain_append)

private theorem Binary64.isPlain_decimalChars (decimal : Decimal) :
    IsPlain (decimalChars decimal) := by
  have hdigits := Text.isPlain_natChars decimal.digits
  have htake : ∀ n, IsPlain ((Text.natChars decimal.digits).take n) :=
    fun n c hc => hdigits c (List.mem_of_mem_take hc)
  have hdrop : ∀ n, IsPlain ((Text.natChars decimal.digits).drop n) :=
    fun n c hc => hdigits c (List.mem_of_mem_drop hc)
  have hzeros := Text.isPlain_replicate (by decide : 32 ≤ '0'.toNat)
  have hexponent := Text.isPlain_natChars decimal.exponent.natAbs
  simp only [decimalChars]
  split_ifs <;>
    simp only [isPlain_append, isPlain_cons, htake, hdrop, hzeros, hdigits,
      hexponent, Text.isPlain_nil] <;> decide

private theorem Binary64.isPlain_chars (x : Binary64) : IsPlain x.chars := by
  have hdecimal := isPlain_decimalChars x.shortestDecimal
  simp only [chars]
  split_ifs <;> simp only [isPlain_cons, hdecimal, Text.isPlain_nil] <;> decide

private theorem Number.isPlain_charsBefore {tail : List Char}
    (htail : IsPlain tail) (n : Number) : IsPlain (n.charsBefore tail) := by
  rw [charsBefore.eq_def]
  cases n with
  | int n =>
      refine isPlain_append.2 ⟨?_, htail⟩
      cases n with
      | ofNat n => exact Text.isPlain_natChars n
      | negSucc n => exact isPlain_cons.2 ⟨by decide, Text.isPlain_natChars _⟩
  | float x => exact isPlain_append.2 ⟨x.isPlain_chars, htail⟩

namespace Json

private theorem isPlain_escapedBefore {tail : List Char} (htail : IsPlain tail)
    (c : Char) : IsPlain (escapedBefore c tail) := by
  have hhex : ∀ n < 16, 32 ≤ (hexDigit n).toNat := by decide
  unfold escapedBefore
  split_ifs with hquote hslash hfeed hreturn htab hback hform hcontrol
  iterate 7
    · simp only [isPlain_cons, htail]
      decide
  · have hhigh := hhex (c.toNat / 16) (by omega)
    have hlow := hhex (c.toNat % 16) (by omega)
    simp only [isPlain_cons, hhigh, hlow, htail]
    decide
  · exact isPlain_cons.2 ⟨by omega, htail⟩

private theorem isPlain_quotedBefore {tail : List Char} (htail : IsPlain tail)
    (text : String) : IsPlain (quotedBefore text tail) := by
  refine isPlain_cons.2 ⟨by decide, ?_⟩
  induction text.toList with
  | nil => exact isPlain_cons.2 ⟨by decide, htail⟩
  | cons c rest ih => exact isPlain_escapedBefore ih c

private theorem isPlain_itemsBefore {items : List Json}
    (hitems : ∀ item ∈ items, ∀ tail, IsPlain tail →
      IsPlain (item.charsBefore tail)) {tail : List Char}
    (htail : IsPlain tail) : IsPlain (itemsBefore items tail) := by
  induction items with
  | nil => exact htail
  | cons item rest ih =>
      obtain ⟨hitem, hrest⟩ := List.forall_mem_cons.1 hitems
      cases rest with
      | nil => exact hitem tail htail
      | cons next rest => exact hitem _ (isPlain_cons.2 ⟨by decide, ih hrest⟩)

private theorem isPlain_fieldsBefore {fields : List (String × Json)}
    (hfields : ∀ field ∈ fields, ∀ tail,
      IsPlain tail → IsPlain (field.2.charsBefore tail)) {tail : List Char}
    (htail : IsPlain tail) : IsPlain (fieldsBefore fields tail) := by
  induction fields with
  | nil => exact htail
  | cons field rest ih =>
      obtain ⟨hfield, hrest⟩ := List.forall_mem_cons.1 hfields
      cases rest with
      | nil =>
          exact isPlain_quotedBefore
            (isPlain_cons.2 ⟨by decide, hfield tail htail⟩) field.1
      | cons next rest =>
          exact isPlain_quotedBefore (isPlain_cons.2 ⟨by decide,
            hfield _ (isPlain_cons.2 ⟨by decide, ih hrest⟩)⟩) field.1

private theorem isPlain_charsBefore (value : Json) {tail : List Char}
    (htail : IsPlain tail) : IsPlain (value.charsBefore tail) := by
  induction value using induct generalizing tail with
  | null => simp only [charsBefore, isPlain_cons, htail]; decide
  | bool value =>
      cases value <;> simp only [charsBefore, isPlain_cons, htail] <;> decide
  | number n => exact Number.isPlain_charsBefore htail n
  | string text => exact isPlain_quotedBefore htail text
  | array items ih =>
      exact isPlain_cons.2
        ⟨by
          decide,
            isPlain_itemsBefore (fun item hitem _ => ih item hitem)
              (isPlain_cons.2 ⟨by decide, htail⟩)⟩
  | object fields ih =>
      exact isPlain_cons.2
        ⟨by
          decide,
            isPlain_fieldsBefore (fun field hfield _ => ih field hfield)
              (isPlain_cons.2 ⟨by decide, htail⟩)⟩

private theorem isPlain_text (value : Json) : IsPlain value.text.toList := by
  rw [text, String.toList_ofList]
  exact isPlain_charsBefore value Text.isPlain_nil

private theorem not_isBlankText {value : Json}
    (hstable : value.isStable = true) :
    Text.isBlankText value.text = false := by
  obtain ⟨c, rest, hhead, hblank, -⟩ := Document.exists_head hstable
  simp [Text.isBlankText, hhead, hblank]

end Json

/-! ## Lines -/

namespace Content

private theorem linePieces_ended {pieces : List (List Char)}
    (h : ∀ piece ∈ pieces, IsPlain piece) :
    linePieces (dropLast? '\r') (pieces ++ [[]]) = pieces := by
  induction pieces with
  | nil => rfl
  | cons piece rest ih =>
      obtain ⟨hpiece, hrest⟩ := List.forall_mem_cons.1 h
      have hkept : dropLast? '\r' piece = piece := by
        refine if_neg fun hlast => ?_
        exact absurd (hpiece _ (List.mem_of_getLast? hlast)) (by decide)
      obtain ⟨next, others, hothers⟩ := List.exists_cons_of_ne_nil
        (List.append_ne_nil_of_right_ne_nil rest
          (List.cons_ne_nil ([] : List Char) []))
      rw [List.cons_append, hothers, linePieces, ← hothers, ih hrest, hkept]
      exact List.cons_ne_nil next others

private theorem lines_join {texts : List String}
    (h : ∀ text ∈ texts, IsPlain text.toList) :
    lines (.text (String.join (texts.map (· ++ "\n")))) = texts.map some := by
  have hsplit : Text.splitAt (fun c => decide (c = '\n'))
      (String.join (texts.map (· ++ "\n"))).toList = texts.map String.toList ++
      [[]] := by
    induction texts with
    | nil => rfl
    | cons text rest ih =>
        obtain ⟨htext, hrest⟩ := List.forall_mem_cons.1 h
        have hplain : Text.splitAt (fun c => decide (c = '\n')) text.toList =
            [text.toList] := by
          refine Text.splitAt_eq_singleton fun c hc => ?_
          have hcode := htext c hc
          refine decide_eq_false ?_
          rintro rfl
          exact absurd hcode (by decide)
        rw [List.map_cons, String.join_cons, String.toList_append,
          String.toList_append, List.append_assoc]
        have hsplit := @Text.splitAt_append_cons _
          (fun c => decide (c = '\n')) text.toList
          (String.join (rest.map (· ++ "\n"))).toList '\n' rfl
        exact hsplit.trans (by rw [hplain, ih hrest]; rfl)
  have hpieces : ∀ piece ∈ texts.map String.toList, IsPlain piece := by
    simpa using h
  rw [lines, hsplit, linePieces_ended hpieces, List.map_map]
  exact List.map_congr_left fun text _ => by simp

end Content

/-! ## Records -/

namespace Pair

/-- What a record needs to come back from a file in the format between jobs,
whose lines nest keys and values one level deeper. -/
structure Returns (pair : Pair) : Prop where
  key : pair.key.Returns (Document.maxDepth - 1)
  value : pair.value.Returns (Document.maxDepth - 1)

def isStable (pair : Pair) : Bool := pair.key.isStable && pair.value.isStable

/-- There is room for one more level around the key and the value. -/
def IsShallow (pair : Pair) : Prop :=
  pair.key.depth < Document.maxDepth ∧ pair.value.depth < Document.maxDepth

end Pair

namespace RecordFormat

private theorem isStable_pairJson (pair : Pair) :
    (pairJson pair).isStable = pair.isStable := by
  simp [pairJson, Pair.isStable, Json.ofFields, Json.isStable,
    Json.areStableFields]

private theorem depth_pairJson_le_iff {pair : Pair} :
    (pairJson pair).depth ≤ Document.maxDepth ↔ pair.IsShallow := by
  simp only [Pair.IsShallow, pairJson, Json.ofFields, Json.depth,
    Json.depthFields, Document.maxDepth]
  omega

private theorem returns_pairJson {pair : Pair} (h : pair.Returns) :
    (pairJson pair).Returns Document.maxDepth where
  canonical :=
    ⟨by
      simp [Assoc.Sorted]; decide, h.key.canonical, h.value.canonical, trivial⟩
  stable := by
    rw [isStable_pairJson, Pair.isStable, h.key.stable, h.value.stable,
      Bool.and_self]
  shallow := depth_pairJson_le_iff.2
    ⟨Nat.lt_of_le_pred (by decide) h.key.shallow,
      Nat.lt_of_le_pred (by decide) h.value.shallow⟩

private theorem readPair_pairJson (file : Path) (pair : Pair) :
    readPair file (pairJson pair) = .ok pair := rfl

theorem lines_texts {α : Type} (encode : α → Json) (sources : List α) :
    Content.lines
      (.text (String.join (sources.map fun source => (encode source).text ++
        "\n"))) =
      sources.map fun source => some (encode source).text := by
  have hplain : ∀ text ∈ sources.map fun source => (encode source).text,
      Text.IsPlain text.toList := by
    intro text htext
    obtain ⟨source, -, rfl⟩ := List.mem_map.1 htext
    exact Json.isPlain_text _
  have hlines := Content.lines_join hplain
  rwa [List.map_map, List.map_map] at hlines

theorem readLines_texts {α : Type} {encode : α → Json}
    {decode : Json → Except IoError Pair} {kept : α → Pair} {sources : List α}
    (hreturns : ∀ source ∈ sources, (encode source).Returns Document.maxDepth)
    (hdecode : ∀ source ∈ sources, decode (encode source) = .ok (kept source)) :
    readLines decode (sources.map fun source => some (encode source).text) =
      .ok (sources.map kept) := by
  induction sources with
  | nil => rfl
  | cons source rest ih =>
      obtain ⟨hsource, hothers⟩ := List.forall_mem_cons.1 hreturns
      obtain ⟨hkept, hrest⟩ := List.forall_mem_cons.1 hdecode
      have hread := ih hothers hrest
      simp only [List.map_cons, readLines, Json.not_isBlankText hsource.stable,
        Json.ofText?_text hsource, Bool.false_eq_true, if_false, hkept, hread]
      rfl

private theorem lines_write_intermediate (pairs : List Pair) :
    Content.lines (.text (intermediate.write pairs)) =
      pairs.map fun pair => some (pairJson pair).text :=
  lines_texts pairJson pairs

theorem read_write_intermediate {pairs : List Pair}
    (h : ∀ pair ∈ pairs, pair.Returns) (file : Path) :
    intermediate.read file (.text (intermediate.write pairs)) = .ok pairs := by
  have hread := readLines_texts
    (fun pair hpair => returns_pairJson (h pair hpair)) fun pair _ =>
      readPair_pairJson file pair
  rwa [← lines_write_intermediate, List.map_id'] at hread

private theorem exists_of_readLines {decode : Json → Except IoError Pair}
    {line : String} {rest : List (Option String)} {pairs : List Pair}
    (h : readLines decode (some line :: rest) = .ok pairs) :
    (Text.isBlankText line = false → ∃ value, Json.ofText? line = some value) ∧
      ∃ others, readLines decode rest = .ok others := by
  rw [readLines] at h
  split_ifs at h with hblank
  · exact ⟨fun hfalse => absurd hblank (by simp [hfalse]), pairs, h⟩
  · cases hread : Json.ofText? line with
    | none => simp [hread] at h
    | some value =>
        refine ⟨fun _ => ⟨value, rfl⟩, ?_⟩
        cases hpair : decode value with
        | error error => simp [hread, hpair, Bind.bind, Except.bind] at h
        | ok first =>
            cases hrest : readLines decode rest with
            | error error =>
                simp [hread, hpair, hrest, Bind.bind, Except.bind] at h
            | ok others => exact ⟨others, rfl⟩

/-- A file between jobs is not read if a record in it has too many levels. -/
theorem isShallow_of_read_intermediate {pairs records : List Pair} {file : Path}
    (h : intermediate.read file (.text (intermediate.write pairs)) =
      .ok records) :
    ∀ pair ∈ pairs, pair.isStable = true → pair.IsShallow := by
  rw [show intermediate.read file _ =
    readLines (readPair file) (Content.lines _) from rfl,
    lines_write_intermediate] at h
  induction pairs generalizing records with
  | nil => simp
  | cons pair rest ih =>
      obtain ⟨hline, others, hrest⟩ := exists_of_readLines h
      refine List.forall_mem_cons.2 ⟨fun hstable => ?_, ih hrest⟩
      rw [← isStable_pairJson] at hstable
      obtain ⟨value, hread⟩ := hline (Json.not_isBlankText hstable)
      exact depth_pairJson_le_iff.1 (Json.depth_le_of_ofText? hstable hread)

end RecordFormat

end JobChain
