import JobChain.Proofs.Formula.Grammar

/-!
# Tokens that are read

Each reader of a token takes the characters that spell it from the front of a
text. It takes them all, if what follows them can belong to no token of that
kind.
-/

namespace JobChain.Formula

/-! ## Runs of characters -/

theorem span_append {test : Char → Bool} {front rest : List Char}
    (hfront : ∀ c ∈ front, test c = true)
    (hrest : ∀ c ∈ rest.head?, test c = false) :
    (front ++ rest).takeWhile test = front ∧
    (front ++ rest).dropWhile test = rest := by
  rw [List.takeWhile_append_of_pos hfront, List.dropWhile_append_of_pos hfront]
  cases rest with
  | nil => exact ⟨List.append_nil _, rfl⟩
  | cons c rest =>
      have hc : test c = false := hrest c rfl
      rw [List.takeWhile_cons_of_neg (by simp [hc]),
        List.dropWhile_cons_of_neg (by simp [hc])]
      exact ⟨List.append_nil _, rfl⟩

/-- What can follow a word: the end, or what is no character of an
identifier. -/
def EndsWord (rest : List Char) : Prop :=
  ∀ c ∈ rest.head?, isIdentChar c = false

/-- What can follow any operand. -/
def EndsOperand (rest : List Char) : Prop :=
  ∀ c ∈ rest.head?, isIdentChar c = false ∧ c.isDigit = false ∧ c ≠ '.'

theorem EndsOperand.endsWord {rest : List Char}
    (h : EndsOperand rest) : EndsWord rest :=
  fun c hc => (h c hc).1

/-! ## Numbers -/

private theorem toLower_of_isDigit {c : Char}
    (h : c.isDigit = true) : c.toLower = c := by
  have hle : c.toNat ≤ '9'.toNat := (Char.isDigit_iff_toNat.1 h).2
  refine dif_neg ?_
  rintro ⟨hupper, -⟩
  have hge : 'A'.toNat ≤ c.toNat := hupper
  exact absurd (hge.trans hle) (by decide)

def numeralValue (negative : Bool) (whole fraction : List Char) : Binary64 :=
  Binary64.ofDecimal negative (Text.digitsValue (whole ++ fraction.tail))
    (-(fraction.tail.length : Int))

section

variable {negative : Bool} {chars sign whole fraction rest : List Char}

private theorem readMagnitude_append (hwhole : whole ≠ [])
    (hdigits : ∀ c ∈ whole, c.isDigit = true) (hfraction : IsFraction fraction)
    (hrest : EndsOperand rest) :
    readMagnitude negative (whole ++ (fraction ++ rest)) =
      some (literalOf (numeralValue negative whole fraction), rest) := by
  have hne : whole.isEmpty = false := by simpa using hwhole
  rcases hfraction with rfl | ⟨digits, rfl, hmore⟩
  · obtain ⟨htake, hdrop⟩ := span_append hdigits fun c hc => (hrest c hc).2.1
    rw [readMagnitude, List.nil_append, htake, hdrop]
    cases rest with
    | nil => simp [hne, numeralValue]
    | cons c others =>
        have hpoint : c ≠ '.' := (hrest c rfl).2.2
        simp [hne, hpoint, numeralValue]
  · have hpoint : ∀ c ∈ ('.' :: (digits ++ rest)).head?,
        c.isDigit = false := by simp
    obtain ⟨htake, hdrop⟩ := span_append hdigits hpoint
    obtain ⟨htake', hdrop'⟩ := span_append hmore fun c hc => (hrest c hc).2.1
    rw [readMagnitude, List.cons_append, htake, hdrop]
    simp [hne, htake', hdrop', numeralValue]

private theorem readMantissa?_append (hwhole : whole ≠ [])
    (hdigits : ∀ c ∈ whole, c.isDigit = true)
    (hfraction : IsFraction fraction) :
    Binary64.readMantissa? (whole ++ fraction) =
      some (Text.digitsValue (whole ++ fraction.tail),
        -(fraction.tail.length : Int), []) := by
  have hne : whole.isEmpty = false := by simpa using hwhole
  rcases hfraction with rfl | ⟨digits, rfl, hmore⟩
  · obtain ⟨htake, hdrop⟩ := @span_append _ _ [] hdigits (by simp)
    rw [Binary64.readMantissa?, htake, hdrop]
    simp [hne]
  · have hpoint : ∀ c ∈ ('.' :: digits).head?, c.isDigit = false := by simp
    obtain ⟨htake, hdrop⟩ := span_append hdigits hpoint
    rw [Binary64.readMantissa?, htake, hdrop]
    simp [hne, List.takeWhile_eq_self_iff.2 hmore,
      List.dropWhile_eq_nil_iff.2 hmore]

/-- The characters of a numeral are no word for infinity or for no number, and
have no exponent. -/
theorem readUnsigned?_append (hwhole : whole ≠ [])
    (hdigits : ∀ c ∈ whole, c.isDigit = true)
    (hfraction : IsFraction fraction) :
    Binary64.readUnsigned? negative (whole ++ fraction) =
      some (numeralValue negative whole fraction) := by
  obtain ⟨c, others, rfl⟩ := List.exists_cons_of_ne_nil hwhole
  have hdigit : c.isDigit = true := hdigits c List.mem_cons_self
  have hlower : c.toLower = c := toLower_of_isDigit hdigit
  have hword : ∀ (word : String) (head : Char), word.toList.head? = some head →
      head.isDigit = false →
      String.ofList ((c :: others ++ fraction).map Char.toLower) ≠ word := by
    rintro word head hhead hnot rfl
    rw [String.toList_ofList, List.cons_append, List.map_cons, hlower] at hhead
    obtain rfl := Option.some.inj hhead
    exact absurd hdigit (by simp [hnot])
  rw [Binary64.readUnsigned?,
    if_neg (not_or.2 ⟨hword _ 'i' rfl rfl, hword _ 'i' rfl rfl⟩),
    if_neg (hword _ 'n' rfl rfl), readMantissa?_append hwhole hdigits hfraction]
  simp [Binary64.readPower?, numeralValue]

theorem IsNumeral.ofText?_eq (h : IsNumeral chars sign whole fraction) :
    Binary64.ofText? (String.ofList chars) =
      some (numeralValue (!sign.isEmpty) whole fraction) := by
  have hread := fun negative =>
    @readUnsigned?_append negative _ _ h.whole_ne h.isDigit_whole h.isFraction
  rw [Binary64.ofText?, String.toList_ofList, h.chars_eq]
  rcases h.sign_eq with rfl | rfl
  · obtain ⟨c, others, hwhole⟩ := List.exists_cons_of_ne_nil h.whole_ne
    have hdigit : c.isDigit = true :=
      h.isDigit_whole c (hwhole ▸ List.mem_cons_self)
    have hminus : c ≠ '-' := by rintro rfl; cases hdigit
    have hplus : c ≠ '+' := by rintro rfl; cases hdigit
    have hsame := hread false
    rw [hwhole] at hsame ⊢
    simpa [hminus, hplus] using hsame
  · exact hread true

private theorem readNumber_append (h : IsNumeral chars sign whole fraction)
    (hrest : EndsOperand rest) : readNumber (chars ++ rest) =
      some (literalOf (numeralValue (!sign.isEmpty) whole fraction), rest) := by
  have hread := fun negative =>
    @readMagnitude_append negative _ _ _ h.whole_ne h.isDigit_whole
      h.isFraction hrest
  rw [h.chars_eq, List.append_assoc, List.append_assoc]
  rcases h.sign_eq with rfl | rfl
  · obtain ⟨c, others, hwhole⟩ := List.exists_cons_of_ne_nil h.whole_ne
    have hdigit : c.isDigit = true :=
      h.isDigit_whole c (hwhole ▸ List.mem_cons_self)
    have hminus : c ≠ '-' := by rintro rfl; cases hdigit
    have hsame := hread false
    rw [hwhole] at hsame ⊢
    simpa [readNumber, hminus] using hsame
  · exact hread true

private theorem exists_of_readMagnitude {value : Json}
    (h : readMagnitude negative chars = some (value, rest)) : ∃ whole fraction,
    chars = whole ++ (fraction ++ rest) ∧ whole ≠ [] ∧
      (∀ c ∈ whole, c.isDigit = true) ∧ IsFraction fraction ∧
      value = literalOf (numeralValue negative whole fraction) := by
  have hdigits : ∀ chars : List Char, ∀ c ∈ chars.takeWhile Char.isDigit,
      c.isDigit = true :=
    fun _ _ => List.mem_takeWhile_imp
  have hchars : chars.takeWhile Char.isDigit ++ chars.dropWhile Char.isDigit =
      chars :=
    List.takeWhile_append_dropWhile
  rw [readMagnitude] at h
  split_ifs at h with hempty
  have hwhole : chars.takeWhile Char.isDigit ≠ [] := by simpa using hempty
  split at h
  rename_i fraction rest hparts
  obtain ⟨rfl, rfl⟩ := Prod.mk.inj (Option.some.inj h)
  split at hparts
  · rename_i others hpoint
    obtain ⟨rfl, rfl⟩ := Prod.mk.inj hparts
    refine ⟨_, '.' :: others.takeWhile Char.isDigit, ?_, hwhole, hdigits chars,
      .inr ⟨_, rfl, hdigits others⟩, rfl⟩
    rw [List.cons_append, List.takeWhile_append_dropWhile, ← hpoint, hchars]
  · obtain ⟨rfl, rfl⟩ := Prod.mk.inj hparts
    exact ⟨_, [], hchars.symm, hwhole, hdigits chars, .inl rfl, rfl⟩

private theorem exists_of_readNumber {value : Json}
    (h : readNumber chars = some (value, rest)) : ∃ text sign whole fraction,
    IsNumeral text sign whole fraction ∧ chars = text ++ rest ∧
      value = literalOf (numeralValue (!sign.isEmpty) whole fraction) := by
  unfold readNumber at h
  split at h
  · obtain ⟨whole, fraction, rfl, hne, hdigits, hfraction, rfl⟩ :=
      exists_of_readMagnitude h
    exact ⟨_, ['-'], whole, fraction,
      ⟨rfl, .inr rfl, hne, hdigits, hfraction⟩, by simp, rfl⟩
  · obtain ⟨whole, fraction, rfl, hne, hdigits, hfraction, rfl⟩ :=
      exists_of_readMagnitude h
    exact ⟨_, [], whole, fraction,
      ⟨rfl, .inl rfl, hne, hdigits, hfraction⟩, by simp, rfl⟩

end

/-! ## Texts -/

section

variable {quote : Char} {text chars rest : List Char}

private theorem readQuoted_cons {c : Char} (hslash : c ≠ '\\')
    (rest : List Char) : readQuoted quote (c :: rest) = if c = quote then
    some ([], rest)
      else (readQuoted quote rest).map fun (text, rest) =>
        (c :: text, rest) := by
  rw [readQuoted]
  · exact fun _ _ hc _ => hslash hc
  · exact fun hc _ => hslash hc

private theorem Quotes.readQuoted_eq (h : Quotes quote text chars)
    (hquote : quote ≠ '\\') (rest : List Char) :
    readQuoted quote (chars ++ quote :: rest) = some (text, rest) := by
  induction h with
  | nil => rw [List.nil_append, readQuoted_cons hquote, if_pos rfl]
  | plain hne hslash _ ih => rw [List.cons_append, readQuoted_cons hslash, if_neg hne, ih]; rfl
  | escaped _ ih => rw [List.cons_append, List.cons_append, readQuoted, ih]; rfl

/-- A character is no backslash where a backslash can neither be the last one
nor have one behind it. -/
theorem ne_slash {c : Char} {behind : List Char}
    (hlong : ∀ d others, c = '\\' → behind = d :: others → False)
    (hshort : c = '\\' → behind = [] → False) : c ≠ '\\' := by
  intro hslash
  cases behind with
  | nil => exact hshort hslash rfl
  | cons d others => exact hlong d others hslash rfl

private theorem exists_of_readQuoted
    (h : readQuoted quote chars = some (text, rest)) :
    ∃ front, Quotes quote text front ∧ chars = front ++ quote :: rest := by
  induction chars using readQuoted.induct quote generalizing text with
  | case1 => cases h
  | case2 c behind ih =>
      rw [readQuoted, Option.map_eq_some_iff] at h
      obtain ⟨⟨others, last⟩, hread, heq⟩ := h
      obtain ⟨rfl, rfl⟩ := Prod.mk.inj heq
      obtain ⟨front, hfront, rfl⟩ := ih hread
      exact ⟨_, .escaped hfront, rfl⟩
  | case3 => cases h
  | case4 behind hlong hshort =>
      have hslash : quote ≠ '\\' := ne_slash hlong hshort
      rw [readQuoted_cons hslash, if_pos rfl] at h
      obtain ⟨rfl, rfl⟩ := Prod.mk.inj (Option.some.inj h)
      exact ⟨[], .nil, rfl⟩
  | case5 c behind hlong hshort hne ih =>
      have hslash : c ≠ '\\' := ne_slash hlong hshort
      rw [readQuoted_cons hslash, if_neg hne, Option.map_eq_some_iff] at h
      obtain ⟨⟨others, last⟩, hread, heq⟩ := h
      obtain ⟨rfl, rfl⟩ := Prod.mk.inj heq
      obtain ⟨front, hfront, rfl⟩ := ih hread
      exact ⟨_, .plain hne hslash hfront, rfl⟩

private theorem readText_quote (hquote : quote = '"' ∨ quote = '\'')
    (rest : List Char) : readText (quote :: rest) =
      (readQuoted quote rest).map fun (text, rest) =>
        (.string (String.ofList text), rest) := by
  rcases hquote with rfl | rfl <;> rfl

private theorem exists_of_readText {value : Json}
    (h : readText chars = some (value, rest)) :
    ∃ quote text front, (quote = '"' ∨ quote = '\'') ∧ Quotes quote text front ∧
      chars = quote :: (front ++ [quote]) ++ rest ∧
      value = .string (String.ofList text) := by
  obtain ⟨quote, behind, rfl, hquote⟩ :
      ∃ quote behind, chars = quote :: behind ∧
        (quote = '"' ∨ quote = '\'') := by
    unfold readText at h
    split at h
    · exact ⟨_, _, rfl, .inl rfl⟩
    · exact ⟨_, _, rfl, .inr rfl⟩
    · cases h
  rw [readText_quote hquote, Option.map_eq_some_iff] at h
  obtain ⟨⟨text, last⟩, hread, heq⟩ := h
  obtain ⟨rfl, rfl⟩ := Prod.mk.inj heq
  obtain ⟨front, hfront, rfl⟩ := exists_of_readQuoted hread
  exact ⟨quote, text, front, hquote, hfront, by simp, rfl⟩

end

/-! ## Words -/

section

variable {chars front ident rest : List Char}

theorem dropText?_eq_some_iff : dropText? front chars = some rest ↔
    chars = front ++ rest := by
  induction front generalizing chars with
  | nil => rw [dropText?, Option.some.injEq, List.nil_append]
  | cons x xs ih =>
      cases chars with
      | nil => simp [dropText?]
      | cons c chars =>
          by_cases heq : x = c
          · subst heq
            simp [dropText?, ih]
          · simp [dropText?, heq, Ne.symm heq]

private theorem readWord_append {word : String} {value : Json}
    (h : EndsWord rest) :
    readWord word value (word.toList ++ rest) = some (value, rest) := by
  have hdrop : dropText? word.toList (word.toList ++ rest) = some rest :=
    dropText?_eq_some_iff.2 rfl
  rw [readWord, hdrop]
  cases rest with
  | nil => rfl
  | cons c others => exact if_neg (by simp [h c rfl])

private theorem of_readWord {word : String} {value found : Json}
    (h : readWord word value chars = some (found, rest)) :
    found = value ∧ chars = word.toList ++ rest ∧ EndsWord rest := by
  rw [readWord] at h
  split at h
  · rename_i hdrop
    obtain ⟨rfl, rfl⟩ := Prod.mk.inj (Option.some.inj h)
    exact ⟨rfl, dropText?_eq_some_iff.1 hdrop, by simp [EndsWord]⟩
  · rename_i c others hdrop
    split_ifs at h with hc
    obtain ⟨rfl, rfl⟩ := Prod.mk.inj (Option.some.inj h)
    exact ⟨rfl, dropText?_eq_some_iff.1 hdrop, by simpa [EndsWord] using hc⟩
  · cases h

/-! ## Paths -/

private theorem isIdentChar_of_isIdentStart {c : Char}
    (h : isIdentStart c = true) : isIdentChar c = true := by
  rw [isIdentStart] at h
  rw [isIdentChar]
  grind

theorem IsIdent.exists_cons (h : IsIdent ident) :
    ∃ c others, ident = c :: others ∧
    isIdentStart c = true ∧ ∀ d ∈ others, isIdentChar d = true := by
  obtain ⟨c, hc, hstart⟩ := h.starts
  obtain ⟨others, rfl⟩ := List.head?_eq_some_iff.1 hc
  exact ⟨c, others, rfl, hstart, h.goes_on⟩

theorem IsIdent.isIdentChar (h : IsIdent ident) :
    ∀ c ∈ ident, isIdentChar c = true := by
  obtain ⟨c, others, rfl, hstart, hothers⟩ := h.exists_cons
  exact List.forall_mem_cons.2 ⟨isIdentChar_of_isIdentStart hstart, hothers⟩

private theorem readIdent_append (h : IsIdent ident) (hrest : EndsWord rest) :
    readIdent (ident ++ rest) = some (ident, rest) := by
  obtain ⟨c, others, rfl, hstart, hothers⟩ := h.exists_cons
  obtain ⟨htake, hdrop⟩ := span_append hothers hrest
  rw [List.cons_append, readIdent, if_pos hstart, htake, hdrop]

private theorem of_readIdent (h : readIdent chars = some (ident, rest)) :
    IsIdent ident ∧ EndsWord rest ∧ chars = ident ++ rest := by
  cases chars with
  | nil => cases h
  | cons c others =>
      rw [readIdent] at h
      split_ifs at h with hstart
      obtain ⟨rfl, rfl⟩ := Prod.mk.inj (Option.some.inj h)
      have hends : EndsWord (others.dropWhile isIdentChar) := by
        intro d hd
        have hnot := List.head?_dropWhile_not isIdentChar others
        rw [Option.mem_def.1 hd] at hnot
        simpa using hnot
      refine ⟨⟨⟨c, rfl, hstart⟩, fun _ => List.mem_takeWhile_imp⟩, hends, ?_⟩
      rw [List.cons_append, List.takeWhile_append_dropWhile]

theorem endsWord_flatMap {others : List (List Char)} (hrest : EndsWord rest) :
    EndsWord (others.flatMap ('.' :: ·) ++ rest) := by
  cases others with
  | nil => exact hrest
  | cons ident others => simp [EndsWord, show isIdentChar '.' = false by decide]

private theorem readPathRest_append {others : List (List Char)}
    (h : ∀ ident ∈ others, IsIdent ident) (hrest : EndsOperand rest)
    (fuel : Nat) (hfuel : (others.flatMap ('.' :: ·)).length ≤ fuel) :
    readPathRest fuel (others.flatMap ('.' :: ·) ++ rest) =
      (others.flatMap ('.' :: ·), rest) := by
  induction others generalizing fuel with
  | nil =>
      rw [List.flatMap_nil, List.nil_append]
      unfold readPathRest
      split
      · rfl
      · exact absurd rfl (hrest '.' rfl).2.2
      · rfl
  | cons ident others ih =>
      obtain ⟨hident, hothers⟩ := List.forall_mem_cons.1 h
      have hends : EndsWord (others.flatMap ('.' :: ·) ++ rest) :=
        endsWord_flatMap hrest.endsWord
      cases fuel with
      | zero => simp at hfuel
      | succ fuel =>
          have hless : (others.flatMap ('.' :: ·)).length ≤ fuel := by
            simp only [List.flatMap_cons, List.length_append, List.length_cons]
              at hfuel
            omega
          rw [List.flatMap_cons, List.append_assoc, List.cons_append,
            readPathRest, readIdent_append hident hends]
          simp only [ih hothers fuel hless, List.cons_append]

private theorem of_readPathRest {fuel : Nat}
    (h : readPathRest fuel chars = (front, rest)) : ∃ others : List (List Char),
    (∀ ident ∈ others, IsIdent ident) ∧
      front = others.flatMap ('.' :: ·) ∧ chars = front ++ rest := by
  induction fuel generalizing chars front with
  | zero =>
      obtain ⟨rfl, rfl⟩ := Prod.mk.inj h
      exact ⟨[], by simp, rfl, rfl⟩
  | succ fuel ih =>
      unfold readPathRest at h
      split at h
      · cases ‹fuel + 1 = 0›
      · rename_i fuel' behind heq
        obtain rfl := Nat.succ.inj heq
        split at h
        · rename_i ident others hread
          obtain ⟨hident, -, rfl⟩ := of_readIdent hread
          obtain ⟨rfl, rfl⟩ := Prod.mk.inj h
          obtain ⟨idents, hidents, hmore, hothers⟩ := ih rfl
          refine ⟨ident :: idents,
            List.forall_mem_cons.2 ⟨hident, hidents⟩, ?_, ?_⟩
          · rw [List.flatMap_cons, ← hmore]
          · rw [List.append_assoc, ← hothers, List.cons_append]
        · obtain ⟨rfl, rfl⟩ := Prod.mk.inj h
          exact ⟨[], by simp, rfl, rfl⟩
      · obtain ⟨rfl, rfl⟩ := Prod.mk.inj h
        exact ⟨[], by simp, rfl, rfl⟩

theorem readPath_append {first : List Char} {others : List (List Char)}
    (hfirst : IsIdent first) (hothers : ∀ ident ∈ others, IsIdent ident)
    (hrest : EndsOperand rest) : readPath (dotted first others ++ rest) =
      some (.path (String.ofList (dotted first others)), rest) := by
  have hends : EndsWord (others.flatMap ('.' :: ·) ++ rest) :=
    endsWord_flatMap hrest.endsWord
  rw [dotted, List.append_assoc, readPath, readIdent_append hfirst hends]
  simp only [Option.bind_eq_bind, Option.bind_some]
  rw [readPathRest_append hothers hrest _ (by simp)]

theorem of_readPath {formula : Formula}
    (h : readPath chars = some (formula, rest)) : ∃ first others behind,
    IsIdent first ∧ EndsWord behind ∧ (∀ ident ∈ others, IsIdent ident) ∧
      formula = .path (String.ofList (dotted first others)) ∧
      chars = first ++ behind ∧ chars = dotted first others ++ rest := by
  rw [readPath] at h
  obtain ⟨⟨first, behind⟩, hident, hothers⟩ := Option.bind_eq_some_iff.1 h
  obtain ⟨hfirst, hends, rfl⟩ := of_readIdent hident
  obtain ⟨rfl, rfl⟩ := Prod.mk.inj (Option.some.inj hothers)
  obtain ⟨others, hothers, hmore, hbehind⟩ := of_readPathRest rfl
  refine ⟨first, others, behind, hfirst, hends, hothers, ?_, rfl, ?_⟩
  · rw [dotted, ← hmore]
  · rw [dotted, ← hmore, List.append_assoc, ← hbehind]

end

/-! ## Literals and paths -/

theorem le_of_isIdentStart {c : Char}
    (h : isIdentStart c = true) : 'A'.toNat ≤ c.toNat := by
  by_contra hless
  have hlt : c.toNat < 0x41 := Nat.lt_of_not_le hless
  have hletter : Text.isAlphabetic c = false := by
    rw [Text.isAlphabetic, Text.alphabeticRanges, Text.inRanges, if_pos hlt]
  have hbar : c = '_' := by simpa [isIdentStart, hletter] using h
  subst hbar
  exact absurd hlt (by decide)

section

variable {chars first rest : List Char} {others : List (List Char)}

private theorem readLiteral_eq_none_iff : readLiteral chars = none ↔
    readNumber chars = none ∧ readText chars = none ∧
    readWord "true" (.bool true) chars = none ∧
    readWord "false" (.bool false) chars = none ∧
    readWord "null" .null chars = none := by
  simp [readLiteral]

theorem of_symbol?_literal {value : Json}
    (h : (Token.literal value).symbol? = some chars) :
    (value = .bool true ∧ chars = "true".toList) ∨
    (value = .bool false ∧ chars = "false".toList) ∨
      (value = .null ∧ chars = "null".toList) := by
  unfold Token.symbol? at h
  split at h <;> simp_all

theorem readLiteral_append {value : Json}
    (h : (Token.literal value).Spells chars) (hrest : EndsOperand rest) :
    readLiteral (chars ++ rest) = some (.literal value, rest) := by
  cases h with
  | symbol hsymbol =>
      have hread :=
        fun word value => @readWord_append rest word value hrest.endsWord
      rcases of_symbol?_literal hsymbol
        with ⟨rfl, rfl⟩ | ⟨rfl, rfl⟩ | ⟨rfl, rfl⟩
      · have hnumber : readNumber ("true".toList ++ rest) = none := rfl
        have htext : readText ("true".toList ++ rest) = none := rfl
        rw [readLiteral, hnumber, htext, hread]
        rfl
      · have hnumber : readNumber ("false".toList ++ rest) = none := rfl
        have htext : readText ("false".toList ++ rest) = none := rfl
        have htrue : readWord "true" (.bool true) ("false".toList ++ rest) =
            none := rfl
        rw [readLiteral, hnumber, htext, htrue, hread]
        rfl
      · have hnumber : readNumber ("null".toList ++ rest) = none := rfl
        have htext : readText ("null".toList ++ rest) = none := rfl
        have htrue : readWord "true" (.bool true) ("null".toList ++ rest) =
            none := rfl
        have hfalse : readWord "false" (.bool false) ("null".toList ++ rest) =
            none := rfl
        rw [readLiteral, hnumber, htext, htrue, hfalse, hread]
        rfl
  | numeral hnumeral hvalue =>
      obtain rfl := Option.some.inj (hnumeral.ofText?_eq.symm.trans hvalue)
      rw [readLiteral, readNumber_append hnumeral hrest]
      rfl
  | @text quote text inner hquote hquotes =>
      rw [List.cons_append, List.append_assoc, List.singleton_append]
      have hnumber : readNumber (quote :: (inner ++ quote :: rest)) = none := by
        rcases hquote with rfl | rfl <;> rfl
      have hslash : quote ≠ '\\' := by rcases hquote with rfl | rfl <;> decide
      rw [readLiteral, hnumber, readText_quote hquote,
        hquotes.readQuoted_eq hslash]
      rfl

theorem of_readLiteral {formula : Formula}
    (h : readLiteral chars = some (formula, rest)) :
    ∃ value text, (Token.literal value).Spells text ∧ formula = .literal value ∧
      chars = text ++ rest := by
  obtain ⟨⟨value, behind⟩, hread, heq⟩ := Option.map_eq_some_iff.1 h
  obtain ⟨rfl, rfl⟩ := Prod.mk.inj heq
  refine ⟨value, ?_⟩
  simp only [Option.orElse_eq_orElse, Option.orElse_eq_or,
    Option.or_eq_some_iff] at hread
  rcases hread with hread | ⟨-, hread | ⟨-, hread | ⟨-, hread | ⟨-, hread⟩⟩⟩⟩
  · obtain ⟨text, sign, whole, fraction, hnumeral, rfl, rfl⟩ :=
      exists_of_readNumber hread
    exact ⟨text, .numeral hnumeral hnumeral.ofText?_eq, rfl, rfl⟩
  · obtain ⟨quote, text, front, hquote, hquotes, rfl, rfl⟩ :=
      exists_of_readText hread
    exact ⟨_, .text hquote hquotes, rfl, rfl⟩
  · obtain ⟨rfl, rfl, -⟩ := of_readWord hread
    exact ⟨_, .symbol rfl, rfl, rfl⟩
  · obtain ⟨rfl, rfl, -⟩ := of_readWord hread
    exact ⟨_, .symbol rfl, rfl, rfl⟩
  · obtain ⟨rfl, rfl, -⟩ := of_readWord hread
    exact ⟨_, .symbol rfl, rfl, rfl⟩

private theorem isIdentChar_of_mem_keywords {word : List Char}
    (h : word ∈ keywords) : ∀ c ∈ word, isIdentChar c = true := by
  have hall : keywords.all (fun word => word.all isIdentChar) =
      true := by decide
  exact List.all_eq_true.1 (List.all_eq_true.1 hall word h)

/-- An identifier that is no keyword does not start as a literal does. -/
theorem readLiteral_ident (hfirst : IsIdent first) (hword : first ∉ keywords)
    (hrest : EndsWord rest) : readLiteral (first ++ rest) = none := by
  have hread : ∀ (word : String) (value : Json), word.toList ∈ keywords →
      readWord word value (first ++ rest) = none := by
    intro word value hmem
    rw [Option.eq_none_iff_forall_ne_some]
    rintro ⟨found, behind⟩ hread
    obtain ⟨-, heq, hends⟩ := of_readWord hread
    have htake := (span_append hfirst.isIdentChar hrest).1
    rw [heq, (span_append (isIdentChar_of_mem_keywords hmem) hends).1] at htake
    exact hword (htake ▸ hmem)
  obtain ⟨c, others, rfl, hstart, -⟩ := hfirst.exists_cons
  have hletter : 'A'.toNat ≤ c.toNat := le_of_isIdentStart hstart
  have hne : ∀ mark : Char, mark.toNat < 'A'.toNat → c ≠ mark := by
    rintro mark hless rfl
    exact absurd hletter (Nat.not_le_of_lt hless)
  have hdigit : c.isDigit = false := by
    rw [← Bool.not_eq_true, Char.isDigit_iff_toNat]
    exact fun h => absurd (hletter.trans h.2) (by decide)
  refine readLiteral_eq_none_iff.2 ⟨?_, ?_, hread _ _ (by decide),
    hread _ _ (by decide), hread _ _ (by decide)⟩
  · simp [readNumber, hne '-' (by decide), readMagnitude, hdigit]
  · simp [readText, hne '"' (by decide), hne '\'' (by decide)]

theorem mem_keywords_of_readLiteral (h : readLiteral (first ++ rest) = none)
    (hrest : EndsWord rest) : first ∉ keywords := by
  obtain ⟨-, -, htrue, hfalse, hnull⟩ := readLiteral_eq_none_iff.1 h
  intro hmem
  have hread := fun word value => @readWord_append rest word value hrest
  simp only [keywords, List.mem_cons, List.not_mem_nil, or_false] at hmem
  rcases hmem with rfl | rfl | rfl
  · cases (hread "true" (.bool true)).symm.trans htrue
  · cases (hread "false" (.bool false)).symm.trans hfalse
  · cases (hread "null" .null).symm.trans hnull

/-! ## Comparisons -/

theorem readComparison_append {comparison : Comparison} {symbol : List Char}
    (h : (Token.comparison comparison).symbol? = some symbol)
    (hrest : ∀ c ∈ rest.head?, c ≠ '=') :
    readComparison (symbol ++ rest) = some (comparison, rest) := by
  have hequals : dropText? ['='] rest = none := by
    cases rest with
    | nil => rfl
    | cons c others => exact if_neg (hrest c rfl).symm
  cases comparison <;> cases h
  case lt => simp [readComparison, Comparison.symbols, dropText?, hequals]
  case gt => simp [readComparison, Comparison.symbols, dropText?, hequals]
  all_goals rfl

theorem of_readComparison {comparison : Comparison}
    (h : readComparison chars = some (comparison, rest)) :
    ∃ symbol, (Token.comparison comparison).symbol? = some symbol ∧
      chars = symbol ++ rest := by
  obtain ⟨⟨symbol, found⟩, hmem, hread⟩ := List.exists_of_findSome?_eq_some h
  obtain ⟨behind, hdrop, heq⟩ := Option.map_eq_some_iff.1 hread
  obtain ⟨rfl, rfl⟩ := Prod.mk.inj heq
  refine ⟨symbol.toList, ?_, dropText?_eq_some_iff.1 hdrop⟩
  have hall : ∀ entry ∈ Comparison.symbols,
      (Token.comparison entry.2).symbol? = some entry.1.toList := by decide
  exact hall _ hmem

theorem readComparison_eq_none
    (h : ∀ c ∈ chars.head?, c ∉ ['=', '!', '<', '>']) :
    readComparison chars = none := by
  cases chars with
  | nil => rfl
  | cons c others =>
      have hne := h c rfl
      simp only [List.mem_cons, List.not_mem_nil, or_false, not_or] at hne
      simp [readComparison, Comparison.symbols, dropText?, hne, eq_comm]

end

end JobChain.Formula
