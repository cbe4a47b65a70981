import JobChain.Json.Document
import JobChain.Json.Printer
import Mathlib.Data.List.Basic
import Mathlib.Data.List.TakeWhile

/-!
# Numbers before a tail

A number is read to its end, where nothing stands that could belong to it. Whole
numbers are read as they are written. The readers of other numbers round more
than once, so these may be read as others.
-/

namespace JobChain

/-! ## Decimal digits -/

namespace Text

theorem head_natChars {n : Nat} (h : 0 < n) :
    (natChars n).head? ≠ some '0' := by
  induction n using Nat.strongRecOn with
  | ind n ih =>
      unfold natChars at *
      by_cases hdigit : n < 10
      · rw [Nat.toDigits_of_lt_base hdigit]
        simp only [List.head?_cons, ne_eq, Option.some.injEq,
          Nat.digitChar_eq_zero]
        omega
      · rw [Nat.toDigits_of_base_le (by decide) (by omega),
          List.head?_append_of_ne_nil _ Nat.toDigits_ne_nil]
        exact ih (n / 10) (by omega) (by omega)

private theorem not_padded_natChars (n : Nat) :
    ¬((natChars n).length > 1 ∧ (natChars n).head? = some '0') := by
  rintro ⟨hlength, hhead⟩
  rcases Nat.eq_zero_or_pos n with rfl | hpos
  · simp [natChars] at hlength
  · exact head_natChars hpos hhead

end Text

/-! ## Reading before a tail -/

namespace Numeral

/-- What can stand behind a number. -/
def Ends (tail : List Char) : Prop :=
  ∀ c ∈ tail.head?, c.isDigit = false ∧ c ≠ '.' ∧ c ≠ 'e' ∧ c ≠ 'E'

theorem ends_nil : Ends [] := by simp [Ends]

theorem ends_cons {c : Char} (tail : List Char)
    (h : c.isDigit = false ∧ c ≠ '.' ∧ c ≠ 'e' ∧ c ≠ 'E') :
    Ends (c :: tail) := by
  simpa [Ends] using h

variable {tail : List Char} (htail : Ends tail)

include htail

theorem span_append (chars : List Char) :
    (chars ++ tail).takeWhile Char.isDigit = chars.takeWhile Char.isDigit ∧
      (chars ++ tail).dropWhile Char.isDigit = chars.dropWhile Char.isDigit ++
      tail := by
  induction chars with
  | nil =>
      cases tail with
      | nil => exact ⟨rfl, rfl⟩
      | cons c rest => simp [(htail c rfl).1]
  | cons c rest ih => cases hdigit : c.isDigit <;> simp [hdigit, ih]

private theorem readDigits?_append {chars digits rest : List Char}
    (h : readDigits? chars = some (digits, rest)) :
    readDigits? (chars ++ tail) = some (digits, rest ++ tail) := by
  obtain ⟨htake, hdrop⟩ := span_append htail chars
  unfold readDigits? at *
  rw [htake, hdrop]
  cases hdigits : chars.takeWhile Char.isDigit with
  | nil => simp [hdigits] at h
  | cons c others =>
      simp only [hdigits, Option.some.injEq, Prod.mk.injEq] at h ⊢
      exact ⟨h.1, by rw [h.2]⟩

private theorem readFraction?_append {chars rest : List Char}
    {fraction : Option (List Char)}
    (h : readFraction? chars = some (fraction, rest)) :
    readFraction? (chars ++ tail) = some (fraction, rest ++ tail) := by
  by_cases hpoint : ∃ others, chars = '.' :: others
  · obtain ⟨others, rfl⟩ := hpoint
    simp only [readFraction?, Option.map_eq_some_iff] at h
    obtain ⟨⟨digits, behind⟩, hdigits, heq⟩ := h
    obtain ⟨rfl, rfl⟩ := Prod.mk.inj heq
    simp [readFraction?, readDigits?_append htail hdigits]
  · have hplain : ∀ chars, (¬∃ others, chars = '.' :: others) →
        readFraction? chars = some (none, chars) := by
      intro chars hnot
      unfold readFraction?
      split
      · exact absurd ⟨_, rfl⟩ hnot
      · rfl
    rw [hplain chars hpoint] at h
    obtain ⟨rfl, rfl⟩ := Prod.mk.inj (Option.some.inj h)
    refine hplain _ ?_
    rintro ⟨others, hothers⟩
    cases chars with
    | nil =>
        exact (htail '.' (by simpa using congrArg List.head? hothers)).2.1 rfl
    | cons c chars =>
        obtain ⟨rfl, -⟩ := List.cons.inj hothers
        exact hpoint ⟨chars, rfl⟩

private theorem readExponentDigits?_append {negative : Bool}
    {chars rest : List Char} {exponent : Option Int}
    (h : readExponentDigits? negative chars = some (exponent, rest)) :
    readExponentDigits? negative (chars ++ tail) =
      some (exponent, rest ++ tail) := by
  simp only [readExponentDigits?, Option.map_eq_some_iff] at h
  obtain ⟨⟨digits, behind⟩, hdigits, heq⟩ := h
  obtain ⟨rfl, rfl⟩ := Prod.mk.inj heq
  simp [readExponentDigits?, readDigits?_append htail hdigits]

private theorem readExponent?_append {chars rest : List Char}
    {exponent : Option Int} (h : readExponent? chars = some (exponent, rest)) :
    readExponent? (chars ++ tail) = some (exponent, rest ++ tail) := by
  cases chars with
  | nil =>
      obtain ⟨rfl, rfl⟩ := Prod.mk.inj (Option.some.inj h)
      cases tail with
      | nil => rfl
      | cons c others =>
          obtain ⟨-, -, hlower, hupper⟩ := htail c rfl
          simp [readExponent?, hlower, hupper]
  | cons c others =>
      simp only [readExponent?, List.cons_append] at h ⊢
      split_ifs at h ⊢ with hletter
      · cases others with
        | nil => simp [readExponentDigits?, readDigits?] at h
        | cons sign others =>
            by_cases hplus : sign = '+'
            · subst hplus
              exact readExponentDigits?_append htail h
            · by_cases hminus : sign = '-'
              · subst hminus
                exact readExponentDigits?_append htail h
              · have hsame := readExponentDigits?_append htail
                  (by simpa [hplus, hminus] using h)
                simpa [hplus, hminus] using hsame
      · obtain ⟨rfl, rfl⟩ := Prod.mk.inj (Option.some.inj h)
        rfl

private theorem read?_append {negative : Bool} {chars rest : List Char}
    {numeral : Numeral} (h : read? negative chars = some (numeral, rest)) :
    read? negative (chars ++ tail) = some (numeral, rest ++ tail) := by
  unfold read? at *
  simp only [Option.bind_eq_bind, Option.bind_eq_some_iff, Prod.exists] at h
  obtain ⟨whole, behind, hwhole, h⟩ := h
  simp only [readDigits?_append htail hwhole, Option.bind_eq_bind,
    Option.bind_some]
  split_ifs at h ⊢
  simp only [Option.bind_eq_some_iff, Prod.exists] at h
  obtain ⟨fraction, behind', hfraction, exponent, last, hexponent, h⟩ := h
  obtain ⟨rfl, rfl⟩ := Prod.mk.inj (Option.some.inj h)
  simp [readFraction?_append htail hfraction,
    readExponent?_append htail hexponent]

omit htail in
theorem readDigits?_natChars (n : Nat) :
    readDigits? (Text.natChars n) = some (Text.natChars n, []) := by
  have hdigits : ∀ c ∈ Text.natChars n, c.isDigit = true :=
    fun c => Text.isDigit_of_mem_natChars
  have htake := List.takeWhile_eq_self_iff.2 hdigits
  have hdrop := List.dropWhile_eq_nil_iff.2 hdigits
  have hne : Text.natChars n ≠ [] := Nat.toDigits_ne_nil
  unfold readDigits?
  rw [htake, hdrop]
  cases hchars : Text.natChars n with
  | nil => exact absurd hchars hne
  | cons c rest => rfl

omit htail in
private theorem read?_natChars (negative : Bool) (n : Nat) :
    read? negative (Text.natChars n) =
      some (⟨negative, Text.natChars n, none, none⟩, []) := by
  unfold read?
  simp only [readDigits?_natChars, Option.bind_eq_bind, Option.bind_some]
  rw [if_neg (Text.not_padded_natChars n)]
  rfl

end Numeral

/-! ## Stable numbers -/

namespace Numeral

/-- The numeral at the front of a text, with its sign. -/
def ofChars? : List Char → Option (Numeral × List Char)
  | '-' :: rest => read? true rest
  | chars => read? false chars

theorem ofChars?_eq_some {chars rest : List Char} {numeral : Numeral}
    (h : ofChars? chars = some (numeral, rest)) :
    (∃ others, chars = '-' :: others ∧
      read? true others = some (numeral, rest)) ∨
      ∃ c others, chars = c :: others ∧ c.isDigit = true ∧
        read? false (c :: others) = some (numeral, rest) := by
  cases chars with
  | nil => simp [ofChars?, read?, readDigits?] at h
  | cons c others =>
      by_cases hminus : c = '-'
      · subst hminus
        exact .inl ⟨others, rfl, h⟩
      · have hread : read? false (c :: others) = some (numeral, rest) := by
          simpa [ofChars?, hminus] using h
        refine .inr ⟨c, others, rfl, ?_, hread⟩
        by_contra hnot
        simp [read?, readDigits?, hnot] at hread

private theorem ofChars?_of_isDigit {c : Char} (h : c.isDigit = true)
    (rest : List Char) : ofChars? (c :: rest) = read? false (c :: rest) := by
  unfold ofChars?
  split
  · rename_i heq
    obtain ⟨rfl, -⟩ := List.cons.inj heq
    cases h
  · rfl

private theorem ofChars?_natChars (n : Nat) :
    ofChars? (Text.natChars n) = some (⟨false, Text.natChars n, none, none⟩,
      []) := by
  have hread := read?_natChars false n
  cases hchars : Text.natChars n with
  | nil => exact absurd hchars Nat.toDigits_ne_nil
  | cons c rest =>
      rw [ofChars?_of_isDigit
        (Text.isDigit_of_mem_natChars (by rw [hchars]; exact .head _)),
        ← hchars, hread]

theorem ofChars?_append {chars rest tail : List Char} {numeral : Numeral}
    (htail : Ends tail) (h : ofChars? chars = some (numeral, rest)) :
    ofChars? (chars ++ tail) = some (numeral, rest ++ tail) := by
  obtain ⟨others, rfl, hread⟩ | ⟨c, others, rfl, hdigit, hread⟩ :=
    ofChars?_eq_some h
  · exact read?_append htail hread
  · rw [List.cons_append, ofChars?_of_isDigit hdigit, ← List.cons_append]
    exact read?_append htail hread

end Numeral

namespace Number

/-- Whether a number is read as it is written. -/
def isStable (number : Number) : Bool :=
  match Numeral.ofChars? (number.charsBefore []) with
  | some (numeral, []) => numeral.number? = some number
  | _ => false

theorem isStable_iff {number : Number} : number.isStable = true ↔
    ∃ numeral, Numeral.ofChars? (number.charsBefore []) = some (numeral, []) ∧
      numeral.number? = some number := by
  unfold isStable
  split
  · rename_i numeral hnumeral
    simp [hnumeral]
  · rename_i hnot
    refine ⟨nofun, ?_⟩
    rintro ⟨numeral, hnumeral, -⟩
    exact absurd hnumeral (hnot numeral)

theorem isStable_int (n : Int)
    (hrange : -0x8000000000000000 ≤ n ∧ n < 0x10000000000000000) :
    (Number.int n hrange).isStable = true := by
  rw [isStable_iff]
  cases n with
  | ofNat n =>
      refine ⟨⟨false, Text.natChars n, none, none⟩, ?_, ?_⟩
      · rw [charsBefore, Text.intChars, List.append_nil,
          Numeral.ofChars?_natChars]
      · have hvalue : Text.digitsValue (Text.natChars n) = n :=
          Nat.ofDigitChars_ten_toDigits
        have hbound : n < 0x10000000000000000 := by
          have hupper := hrange.2
          simp only [Int.ofNat_eq_natCast] at hupper
          omega
        simp only [Numeral.number?, hvalue, Option.isNone_none, Bool.and_self,
          if_true]
        rw [dif_pos ⟨trivial, hbound⟩]
        rfl
  | negSucc n =>
      refine ⟨⟨true, Text.natChars (n + 1), none, none⟩, ?_, ?_⟩
      · rw [charsBefore, Text.intChars, List.append_nil, Numeral.ofChars?,
          Numeral.read?_natChars]
      · have hvalue : Text.digitsValue (Text.natChars (n + 1)) = n + 1 :=
          Nat.ofDigitChars_ten_toDigits
        have hbound : n + 1 ≤ 0x8000000000000000 := by omega
        simp only [Numeral.number?, hvalue, Option.isNone_none, Bool.and_self,
          if_true]
        rw [dif_neg (by simp), dif_pos ⟨trivial, by omega, hbound⟩]
        rfl

end Number

end JobChain
