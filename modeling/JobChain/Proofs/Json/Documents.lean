import JobChain.Proofs.Json.Numerals
import JobChain.Proofs.Json.Values
import JobChain.Text.Blank

/-!
# Documents of printed values

The text of a value is read as its document, whatever stands behind it, as long
as its numbers are read as they are written.
-/

namespace JobChain.Document

open Json (escapedBefore quotedBefore itemsBefore fieldsBefore)

/-! ## Strings -/

private theorem hexUnit?_of_lt {code : Nat} (h : code < 32) :
    hexUnit? '0' '0' (Json.hexDigit (code / 16)) (Json.hexDigit (code % 16)) =
      some code := by
  have hall : ∀ code < 32,
      hexUnit? '0' '0' (Json.hexDigit (code / 16)) (Json.hexDigit (code % 16)) =
        some code := by
    decide
  exact hall code h

private theorem readQuoted?_plain {c : Char} (hquote : c ≠ '"')
    (hslash : c ≠ '\\') (hplain : 32 ≤ c.toNat) (rest : List Char) :
    readQuoted? (c :: rest) = (readQuoted? rest).map (Quoted.push c) := by
  rw [readQuoted?]
  · rw [if_neg (by omega)]
  all_goals simp_all

private theorem readQuoted?_escaped (c : Char) (rest : List Char) :
    readQuoted? (escapedBefore c rest) =
      (readQuoted? rest).map (Quoted.push c) := by
  unfold escapedBefore
  split_ifs with hquote hslash hfeed hreturn htab hback hform hcontrol
  · subst hquote
    rfl
  · subst hslash
    rfl
  · subst hfeed
    rfl
  · subst hreturn
    rfl
  · subst htab
    rfl
  · obtain rfl : c = Char.ofNat 8 := by rw [← hback, Char.ofNat_toNat]
    rfl
  · obtain rfl : c = Char.ofNat 12 := by rw [← hform, Char.ofNat_toNat]
    rfl
  · rw [readQuoted?, hexUnit?_of_lt hcontrol]
    have hhigh : isHighSurrogate c.toNat = false := by
      simp only [isHighSurrogate, Bool.and_eq_false_iff,
        decide_eq_false_iff_not]
      omega
    have hlow : isLowSurrogate c.toNat = false := by
      simp only [isLowSurrogate, Bool.and_eq_false_iff, decide_eq_false_iff_not]
      omega
    simp only [hhigh, hlow, Char.ofNat_toNat, Bool.false_eq_true, if_false]
  · exact readQuoted?_plain hquote hslash (by omega) rest

private theorem readQuoted?_quoted (text : String) (tail : List Char) :
    readQuoted? (text.toList.foldr escapedBefore ('"' :: tail)) =
      some (some text.toList, tail) := by
  induction text.toList with
  | nil => rfl
  | cons c rest ih => rw [List.foldr_cons, readQuoted?_escaped, ih]; rfl

/-! ## Spaces -/

private theorem skipSpace_cons {c : Char} (h : isSpace c = false)
    (rest : List Char) : skipSpace (c :: rest) = c :: rest := by
  simp [skipSpace, h]

private theorem isSpace_of_not_isBlank {c : Char}
    (h : Text.isBlank c = false) : isSpace c = false := by
  rw [Bool.eq_false_iff]
  intro hspace
  simp only [isSpace, Bool.or_eq_true, decide_eq_true_eq] at hspace
  rcases hspace with ((rfl | rfl) | rfl) | rfl <;> cases h

/-! ## Numbers -/

private theorem isBlank_of_isDigit {c : Char}
    (h : c.isDigit = true) : Text.isBlank c = false := by
  have hall : ∀ code < 58, 48 ≤ code →
      Text.isBlank (Char.ofNat code) = false := by decide
  obtain ⟨hlow, hhigh⟩ := Char.isDigit_iff_toNat.1 h
  have hblank := hall c.toNat (Nat.lt_succ_of_le hhigh) hlow
  rwa [Char.ofNat_toNat] at hblank

private theorem read_of_isDigit {c : Char} (h : c.isDigit = true)
    (rest : List Char) (fuel : Nat) :
    read (fuel + 1) (c :: rest) = readNumber false (c :: rest) := by
  have hother : ∀ other ∈ ['"', '[', '\x7b', '-', 'n', 't', 'f'],
      c ≠ other := by
    rintro other hmem rfl
    simp only [List.mem_cons, List.not_mem_nil, or_false] at hmem
    rcases hmem with rfl | rfl | rfl | rfl | rfl | rfl | rfl <;> cases h
  simp only [List.forall_mem_cons, List.not_mem_nil, false_implies,
    implies_true, and_true] at hother
  rw [read, skipSpace_cons (isSpace_of_not_isBlank (isBlank_of_isDigit h))]
  split <;> simp_all

private theorem read_of_ofChars? {chars rest : List Char} {numeral : Numeral}
    (h : Numeral.ofChars? chars = some (numeral, rest)) (fuel : Nat) :
    read (fuel + 1) chars = (Document.number numeral.number?, some rest) := by
  obtain ⟨others, rfl, hread⟩ | ⟨c, others, rfl, hdigit, hread⟩ :=
    Numeral.ofChars?_eq_some h
  · rw [read, skipSpace_cons (by decide)]
    simp only [readNumber, hread]
  · rw [read_of_isDigit hdigit, readNumber, hread]

private theorem read_numberChars {n : Number} (hstable : n.isStable = true)
    {tail : List Char} (htail : Numeral.Ends tail) (fuel : Nat) :
    read (fuel + 1) (n.charsBefore tail) = (Document.number (some n),
      some tail) := by
  obtain ⟨numeral, hchars, hnumber⟩ := Number.isStable_iff.1 hstable
  have happend : n.charsBefore tail = n.charsBefore [] ++ tail := by
    cases n <;> simp [Number.charsBefore]
  rw [happend, read_of_ofChars? (Numeral.ofChars?_append htail hchars) fuel,
    hnumber]
  rfl

end JobChain.Document

namespace JobChain.Json

/-! ## Stable values -/

mutual

def isStable : Json → Bool
  | .number n => n.isStable
  | .array items => areStable items
  | .object fields => areStableFields fields
  | _ => true

def areStable : List Json → Bool
  | [] => true
  | item :: rest => item.isStable && areStable rest

def areStableFields : List (String × Json) → Bool
  | [] => true
  | (_, value) :: rest => value.isStable && areStableFields rest

end

theorem areStable_iff {items : List Json} :
    areStable items = true ↔ ∀ item ∈ items, item.isStable = true := by
  induction items with
  | nil => simp [areStable]
  | cons item rest ih => simp [areStable, ih]

theorem areStableFields_iff {fields : List (String × Json)} :
    areStableFields fields = true ↔ ∀ field ∈ fields,
    field.2.isStable = true := by
  induction fields with
  | nil => simp [areStableFields]
  | cons field rest ih => simp [areStableFields, ih]

private theorem length_charsBefore (value : Json) (tail : List Char) :
    (value.charsBefore tail).length = value.text.toList.length +
    tail.length := by
  rw [charsBefore_eq, List.length_append]

end JobChain.Json

namespace JobChain.Document

open Json (quotedBefore itemsBefore fieldsBefore)

/-! ## Values -/

/-- A value is read as its document, given fuel for its text. -/
def ReadsBack (value : Json) : Prop :=
  ∀ fuel tail, 2 * value.text.toList.length ≤ fuel → Numeral.Ends tail →
    read fuel (value.charsBefore tail) = (ofJson value, some tail)

private theorem readItems_itemsBefore {items : List Json} (hne : items ≠ [])
    (hitems : ∀ item ∈ items, ReadsBack item) {fuel : Nat}
    (hfuel : 2 * (itemsBefore items []).length + 1 ≤ fuel) (tail : List Char) :
    readItems fuel (itemsBefore items (']' :: tail)) =
      (ofItems items, some tail) := by
  induction items generalizing fuel with
  | nil => exact absurd rfl hne
  | cons item rest ih =>
      obtain ⟨fuel, rfl⟩ : ∃ fuel', fuel = fuel' + 1 := ⟨fuel - 1, by omega⟩
      have hitem := hitems item List.mem_cons_self
      cases rest with
      | nil =>
          simp only [itemsBefore, Json.length_charsBefore] at hfuel
          have hread := hitem fuel (']' :: tail)
            (by omega) (Numeral.ends_cons _ (by decide))
          simp only [itemsBefore, readItems, hread]
          rfl
      | cons next rest =>
          simp only [itemsBefore, Json.length_charsBefore, List.length_cons]
            at hfuel
          have hread :=
            hitem fuel (',' :: itemsBefore (next :: rest) (']' :: tail))
              (by omega)
            (Numeral.ends_cons _ (by decide))
          have hrest := ih (by simp)
            (fun other hother => hitems other (.tail _ hother))
            (by omega : 2 * (itemsBefore (next :: rest) []).length + 1 ≤ fuel)
          have hitems : itemsBefore (item :: next :: rest) (']' :: tail) =
              item.charsBefore (',' ::
                itemsBefore (next :: rest) (']' :: tail)) := rfl
          simp only [hitems, readItems, hread,
            skipSpace_cons (by decide : isSpace ',' = false), hrest]
          rfl

private theorem length_quotedBefore (text : String) (tail : List Char) :
    (quotedBefore text tail).length = (quotedBefore text []).length +
    tail.length := by
  rw [← List.length_append, ← Json.quotedBefore_append, List.nil_append]

private theorem readFields_fieldsBefore {fields : List (String × Json)}
    (hne : fields ≠ []) (hread : ∀ field ∈ fields, ReadsBack field.2)
    {fuel : Nat} (hfuel : 2 * (fieldsBefore fields []).length + 1 ≤ fuel)
    (tail : List Char) :
    readFields fuel (fieldsBefore fields ('\x7d' :: tail)) =
      (ofFields fields, some tail) := by
  induction fields generalizing fuel with
  | nil => exact absurd rfl hne
  | cons field rest ih =>
      obtain ⟨key, value⟩ := field
      obtain ⟨fuel, rfl⟩ : ∃ fuel', fuel = fuel' + 1 := ⟨fuel - 1, by omega⟩
      have hvalue : ReadsBack value := hread (key, value) List.mem_cons_self
      have hkey := fun behind => readQuoted?_quoted key (':' :: behind)
      cases rest with
      | nil =>
          rw [fieldsBefore, length_quotedBefore, List.length_cons,
            Json.length_charsBefore] at hfuel
          have hfirst := hvalue fuel ('\x7d' :: tail)
            (by omega) (Numeral.ends_cons _ (by decide))
          rw [fieldsBefore, quotedBefore, readFields,
            skipSpace_cons (by decide)]
          simp only [hkey,
            skipSpace_cons (by decide : isSpace ':' = false), hfirst,
            skipSpace_cons (by decide : isSpace '\x7d' = false),
            Option.map_some, String.ofList_toList]
          rfl
      | cons next rest =>
          have hfields : ∀ tail,
              fieldsBefore ((key, value) :: next :: rest) tail =
                quotedBefore key
              (':' ::
                value.charsBefore (',' :: fieldsBefore (next :: rest) tail)) :=
            fun _ => rfl
          rw [hfields, length_quotedBefore, List.length_cons,
            Json.length_charsBefore, List.length_cons] at hfuel
          have hfirst :=
            hvalue fuel (',' :: fieldsBefore (next :: rest) ('\x7d' :: tail))
              (by omega)
            (Numeral.ends_cons _ (by decide))
          have hrest := ih (by simp)
            (fun other hother => hread other (.tail _ hother))
            (by omega : 2 * (fieldsBefore (next :: rest) []).length + 1 ≤ fuel)
          rw [hfields, quotedBefore, readFields, skipSpace_cons (by decide)]
          simp only [hkey,
            skipSpace_cons (by decide : isSpace ':' = false), hfirst,
            skipSpace_cons (by decide : isSpace ',' = false), hrest,
            Option.map_some, String.ofList_toList]
          rfl

/-- A value begins with a character that neither is blank nor closes an
array. -/
theorem exists_head {value : Json} (hstable : value.isStable = true) : ∃ c rest,
    value.text.toList = c :: rest ∧ Text.isBlank c = false ∧ c ≠ ']' := by
  cases value with
  | null => exact ⟨'n', ['u', 'l', 'l'], rfl, by decide, by decide⟩
  | bool value =>
      cases value
      · exact ⟨'f', ['a', 'l', 's', 'e'], rfl, by decide, by decide⟩
      · exact ⟨'t', ['r', 'u', 'e'], rfl, by decide, by decide⟩
  | number n =>
      obtain ⟨numeral, hchars, -⟩ := Number.isStable_iff.1 hstable
      have htext : (Json.number n).text.toList = n.charsBefore [] := by
        simp [Json.text, Json.charsBefore]
      rw [htext]
      obtain ⟨others, heq, -⟩ | ⟨c, others, heq, hdigit, -⟩ :=
        Numeral.ofChars?_eq_some hchars
      · exact ⟨'-', others, heq, by decide, by decide⟩
      · refine ⟨c, others, heq, isBlank_of_isDigit hdigit, ?_⟩
        rintro rfl
        cases hdigit
  | string text => exact ⟨'"', _, String.toList_ofList, by decide, by decide⟩
  | array items => exact ⟨'[', _, String.toList_ofList, by decide, by decide⟩
  | object fields =>
      exact ⟨'\x7b', _, String.toList_ofList, by decide, by decide⟩

private theorem read_array {chars rest : List Char} {c : Char}
    (hspace : skipSpace chars = c :: rest) (hopen : c ≠ ']') (fuel : Nat) :
    read (fuel + 1) ('[' :: chars) =
      (.array (readItems fuel chars).1 (readItems fuel chars).2.isSome,
        (readItems fuel chars).2) := by
  rw [read, skipSpace_cons (by decide)]
  simp only [hspace]
  split
  · rename_i heq
    exact absurd (List.cons.inj heq).1 hopen
  · rfl

private theorem read_object {chars rest : List Char} {c : Char}
    (hspace : skipSpace chars = c :: rest) (hopen : c ≠ '\x7d') (fuel : Nat) :
    read (fuel + 1) ('\x7b' :: chars) =
      (.object (readFields fuel chars).1 (readFields fuel chars).2.isSome,
        (readFields fuel chars).2) := by
  rw [read, skipSpace_cons (by decide)]
  simp only [hspace]
  split
  · rename_i heq
    exact absurd (List.cons.inj heq).1 hopen
  · rfl

/-- The text of a value has at least one character, which stands for fuel. -/
theorem readsBack_of_succ {value : Json} (hstable : value.isStable = true)
    (h : ∀ fuel tail, 2 * value.text.toList.length ≤ fuel + 1 →
      Numeral.Ends tail → read (fuel + 1) (value.charsBefore tail) =
        (ofJson value, some tail)) : ReadsBack value := by
  intro fuel tail hfuel htail
  obtain ⟨c, rest, hhead, -⟩ := exists_head hstable
  obtain ⟨fuel, rfl⟩ : ∃ fuel', fuel = fuel' + 1 :=
    ⟨fuel - 1, by simp [hhead] at hfuel; omega⟩
  exact h fuel tail hfuel htail

private theorem readsBack_array {items : List Json}
    (hstable : ∀ item ∈ items, item.isStable = true)
    (hitems : ∀ item ∈ items, ReadsBack item) : ReadsBack (.array items) := by
  refine readsBack_of_succ (Json.areStable_iff.2 hstable)
    fun fuel tail hfuel htail => ?_
  cases items with
  | nil => rfl
  | cons item rest =>
      obtain ⟨behind, hbehind⟩ : ∃ behind,
          itemsBefore (item :: rest) (']' :: tail) =
          item.charsBefore behind := by
        cases rest with
        | nil => exact ⟨_, rfl⟩
        | cons next rest => exact ⟨_, rfl⟩
      obtain ⟨c, chars, hhead, hblank, hopen⟩ :=
        exists_head (hstable item List.mem_cons_self)
      have hskip : skipSpace (itemsBefore (item :: rest) (']' :: tail)) = c ::
          (chars ++ behind) := by
        rw [hbehind, Json.charsBefore_eq, hhead, List.cons_append,
          skipSpace_cons (isSpace_of_not_isBlank hblank)]
      have hlength : (Json.array (item :: rest)).text.toList.length =
          (itemsBefore (item :: rest) []).length + 2 := by
        have happend := @Json.itemsBefore_append (item :: rest)
          (fun item _ => item.charsBefore_append) [] [']']
        simp only [List.nil_append] at happend
        simp [Json.text, Json.charsBefore, happend]
      have hread := readItems_itemsBefore (List.cons_ne_nil item rest) hitems
        (by omega : 2 * (itemsBefore (item :: rest) []).length + 1 ≤ fuel) tail
      rw [Json.charsBefore, read_array hskip hopen, hread]
      rfl

private theorem readsBack_object {fields : List (String × Json)}
    (hstable : ∀ field ∈ fields, field.2.isStable = true)
    (hfields : ∀ field ∈ fields, ReadsBack field.2) :
    ReadsBack (.object fields) := by
  refine readsBack_of_succ (Json.areStableFields_iff.2 hstable)
    fun fuel tail hfuel htail => ?_
  cases fields with
  | nil => rfl
  | cons field rest =>
      obtain ⟨key, value⟩ := field
      obtain ⟨behind, hbehind⟩ : ∃ behind,
          fieldsBefore ((key, value) :: rest) ('\x7d' :: tail) =
          '"' :: behind := by
        cases rest with
        | nil => exact ⟨_, rfl⟩
        | cons next rest => exact ⟨_, rfl⟩
      have hskip :
          skipSpace (fieldsBefore ((key, value) :: rest) ('\x7d' :: tail)) =
          '"' :: behind := by
        rw [hbehind, skipSpace_cons (by decide)]
      have hlength : (Json.object ((key, value) :: rest)).text.toList.length =
          (fieldsBefore ((key, value) :: rest) []).length + 2 := by
        have happend := @Json.fieldsBefore_append ((key, value) :: rest)
          (fun field _ => field.2.charsBefore_append) [] ['\x7d']
        simp only [List.nil_append] at happend
        simp [Json.text, Json.charsBefore, happend]
      have hread :=
        readFields_fieldsBefore (List.cons_ne_nil (key, value) rest) hfields
          (by
            omega : 2 * (fieldsBefore ((key, value) :: rest) []).length +
              1 ≤ fuel) tail
      rw [Json.charsBefore, read_object hskip (by decide), hread]
      rfl

private theorem readsBack {value : Json}
    (hstable : value.isStable = true) : ReadsBack value := by
  induction value using Json.induct with
  | null => exact readsBack_of_succ hstable fun fuel tail _ _ => rfl
  | bool value => exact readsBack_of_succ hstable fun fuel tail _ _ => by cases value <;> rfl
  | number n =>
      exact readsBack_of_succ hstable fun fuel tail _ htail =>
        read_numberChars hstable htail fuel
  | string text =>
      refine readsBack_of_succ hstable fun fuel tail _ _ => ?_
      rw [Json.charsBefore, quotedBefore, read, skipSpace_cons (by decide)]
      simp only [readQuoted?_quoted, Option.map_some, String.ofList_toList]
      rfl
  | array items ih =>
      have hitems := Json.areStable_iff.1 hstable
      exact readsBack_array hitems fun item hitem =>
        ih item hitem (hitems item hitem)
  | object fields ih =>
      have hfields := Json.areStableFields_iff.1 hstable
      exact readsBack_object hfields fun field hfield =>
        ih field hfield (hfields field hfield)

theorem ofChars_text {value : Json} (hstable : value.isStable = true) :
    ofChars value.text.toList = (ofJson value, some []) := by
  have hread := readsBack hstable (2 * value.text.toList.length + 2) []
    (by omega) Numeral.ends_nil
  rwa [Json.charsBefore_eq, List.append_nil] at hread

/-! ## Values of the same text -/

private theorem ofItems_injective {xs ys : List Json}
    (hitems : ∀ x ∈ xs, ∀ y, ofJson x = ofJson y → x = y)
    (h : ofItems xs = ofItems ys) : xs = ys := by
  induction xs generalizing ys with
  | nil =>
      cases ys with
      | nil => rfl
      | cons y ys => cases h
  | cons x xs ih =>
      obtain ⟨hx, hxs⟩ := List.forall_mem_cons.1 hitems
      cases ys with
      | nil => cases h
      | cons y ys =>
          obtain ⟨hfirst, hrest⟩ := List.cons.inj h
          rw [hx y hfirst, ih hxs hrest]

private theorem ofFields_injective {xs ys : List (String × Json)}
    (hfields : ∀ x ∈ xs, ∀ y, ofJson x.2 = ofJson y → x.2 = y)
    (h : ofFields xs = ofFields ys) : xs = ys := by
  induction xs generalizing ys with
  | nil =>
      cases ys with
      | nil => rfl
      | cons y ys => cases h
  | cons x xs ih =>
      obtain ⟨hx, hxs⟩ := List.forall_mem_cons.1 hfields
      cases ys with
      | nil => cases h
      | cons y ys =>
          obtain ⟨hfirst, hrest⟩ := List.cons.inj h
          obtain ⟨hkey, hvalue⟩ := Prod.mk.inj hfirst
          rw [ih hxs hrest, Prod.ext (Option.some.inj hkey) (hx y.2 hvalue)]

private theorem ofJson_injective {x y : Json}
    (h : ofJson x = ofJson y) : x = y := by
  induction x using Json.induct generalizing y with
  | null | bool | number | string =>
      cases y <;> cases h
      rfl
  | array items ih =>
      cases y with
      | array others => rw [ofItems_injective ih (Document.array.inj h).1]
      | _ => cases h
  | object fields ih =>
      cases y with
      | object others => rw [ofFields_injective ih (Document.object.inj h).1]
      | _ => cases h

end JobChain.Document

/-- Values whose numbers are read as they are written have different texts,
however deeply they are nested. -/
theorem JobChain.Json.eq_of_text_eq {x y : Json} (hx : x.isStable = true)
    (hy : y.isStable = true) (h : x.text = y.text) : x = y := by
  have hread := Document.ofChars_text hx
  rw [h, Document.ofChars_text hy] at hread
  exact (Document.ofJson_injective (Prod.mk.inj hread).1).symm
