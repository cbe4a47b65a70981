import JobChain.Glob
import JobChain.OutputFile
import JobChain.Proofs.Store.Steps

/-!
# Escaped patterns

The pattern of a directory and a front of names. Its pieces accept the pieces of
the directory alone, whatever characters these are made of, and then every name
with that front.
-/

namespace JobChain.Glob

/-! ## Tokens -/

def exactToken (c : Char) : Token :=
  if isSpecial c then .within [.single c] else .char c

private theorem isMany_exactToken (c : Char) :
    isMany (exactToken c) = false := by
  unfold exactToken
  split <;> rfl

private theorem accepts_exactToken (c d : Char) :
    (exactToken c).accepts d = decide (d = c) := by
  unfold exactToken
  split <;> simp [Token.accepts, Member.holds]

private theorem accepts_exactTokens (chars other : List Char) :
    accepts (chars.map exactToken) other = decide (other = chars) := by
  induction chars generalizing other with
  | nil => cases other <;> simp [accepts]
  | cons c rest ih =>
      cases other with
      | nil => simp [accepts, isMany_exactToken]
      | cons d others =>
          simp [accepts, isMany_exactToken, accepts_exactToken, ih]

theorem accepts_star (other : List Char) : accepts [.star] other = true := by
  have hsuffix : [] ∈ suffixes other := by
    induction other with
    | nil => simp [suffixes]
    | cons c rest ih => simp [suffixes, ih]
  simpa [accepts, isMany] using hsuffix

private theorem accepts_front (front other : List Char) :
    accepts (front.map exactToken ++ [.star]) other =
      front.isPrefixOf other := by
  induction front generalizing other with
  | nil => simpa using accepts_star other
  | cons c rest ih =>
      cases other with
      | nil => simp [accepts, isMany_exactToken]
      | cons d others =>
          have hequal : (c == d) = decide (d = c) := by
            rw [Bool.eq_iff_iff, beq_iff_eq, decide_eq_true_iff, eq_comm]
          rw [List.isPrefixOf_cons_cons, ← ih, hequal]
          simp [accepts, isMany_exactToken, accepts_exactToken]

/-! ## Reading -/

private theorem escapeChars_append (chars rest : List Char) :
    escapeChars (chars ++ rest) = escapeChars chars ++ escapeChars rest := by
  induction chars with
  | nil => rfl
  | cons c others ih =>
      rw [List.cons_append, escapeChars, escapeChars, ih]
      split <;> simp

private theorem escapeChars_eq_self {chars : List Char}
    (h : chars.all (fun c => !isSpecial c) = true) :
    escapeChars chars = chars := by
  induction chars with
  | nil => rfl
  | cons c rest ih =>
      rw [List.all_cons, Bool.and_eq_true] at h
      rw [escapeChars, ih h.2, if_neg (by simpa using h.1)]

private theorem readTokens?_escapeChars (chars rest : List Char) (fuel : Nat)
    (front : Bool) :
    ∃ front',
      readTokens? (chars.length + fuel) front (escapeChars chars ++ rest) =
      (readTokens? fuel front' rest).map (chars.map exactToken ++ ·) := by
  induction chars generalizing front with
  | nil => exact ⟨front, by simp [escapeChars]⟩
  | cons c others ih =>
      have hfuel : (c :: others).length + fuel =
          (others.length + fuel) + 1 := by
        rw [List.length_cons]
        omega
      by_cases hspecial : isSpecial c = true
      · obtain ⟨front', hread⟩ := ih false
        refine ⟨front', ?_⟩
        have hclass : readClass? (c :: ']' :: (escapeChars others ++ rest)) =
            some (exactToken c, escapeChars others ++ rest) := by
          have hne : c ≠ '!' := by
            rintro rfl
            simp [isSpecial] at hspecial
          rw [readClass?]
          · simp [untilBracket?, members, exactToken, hspecial]
          all_goals simp [hne]
        rw [hfuel, escapeChars, if_pos hspecial]
        simp only [List.cons_append, readTokens?, hclass, hread,
          Option.bind_eq_bind, Option.bind_some]
        cases readTokens? fuel front' rest <;> simp
      · obtain ⟨front', hread⟩ := ih (c = '/')
        refine ⟨front', ?_⟩
        obtain ⟨⟨⟨hmark, hstar⟩, hopening⟩, hclosing⟩ :
            ((c ≠ '?' ∧ c ≠ '*') ∧ c ≠ '[') ∧ c ≠ ']' := by
          simpa [isSpecial, and_assoc] using hspecial
        rw [hfuel, escapeChars, if_neg hspecial, List.cons_append, readTokens?]
        · rw [hread, Option.map_map]
          simp [exactToken, hspecial, Function.comp_def]
        all_goals simp [hmark, hstar, hopening]

private theorem length_le_length_escapeChars (chars : List Char) :
    chars.length ≤ (escapeChars chars).length := by
  induction chars with
  | nil => simp [escapeChars]
  | cons c rest ih =>
      rw [escapeChars]
      split <;> simp only [List.length_cons] <;> omega

private theorem tokens?_escapeChars (chars : List Char) :
    tokens? (escapeChars chars) = some (chars.map exactToken) := by
  have hlength := length_le_length_escapeChars chars
  obtain ⟨fuel, hfuel⟩ : ∃ fuel, (escapeChars chars).length + 1 = chars.length +
      (fuel + 1) :=
    ⟨(escapeChars chars).length - chars.length, by omega⟩
  obtain ⟨front, hread⟩ := readTokens?_escapeChars chars [] (fuel + 1) true
  rw [List.append_nil, ← hfuel] at hread
  rw [tokens?, hread]
  simp [readTokens?]

private theorem tokens?_escapeChars_star (chars : List Char) :
    tokens? (escapeChars chars ++ ['*']) =
      some (chars.map exactToken ++ [.star]) := by
  have hlength := length_le_length_escapeChars chars
  obtain ⟨fuel, hfuel⟩ :
      ∃ fuel, (escapeChars chars ++ ['*']).length + 1 = chars.length +
        (fuel + 2) := by
    refine ⟨(escapeChars chars).length - chars.length, ?_⟩
    rw [List.length_append, List.length_singleton]
    omega
  obtain ⟨front, hread⟩ := readTokens?_escapeChars chars ['*'] (fuel + 2) true
  rw [← hfuel] at hread
  rw [tokens?, hread]
  simp [readTokens?]

/-! ## Pieces -/

def exactPart (piece : String) : Part :=
  if piece.toList.all (fun c => !isSpecial c) then .literal piece
  else .wild (piece.toList.map exactToken)

def frontPart (front : String) : Part :=
  .wild (front.toList.map exactToken ++ [.star])

private theorem isChar_exactToken (c : Char) :
    Part.isChar (exactToken c) = !isSpecial c := by
  unfold exactToken
  cases isSpecial c <;> rfl

private theorem ofChars?_escapeChars (chars : List Char) :
    Part.ofChars? (escapeChars chars) =
      some (exactPart (String.ofList chars)) := by
  have hdeep : chars.map exactToken ≠ [.deep] := by
    intro heq
    obtain ⟨c, rfl, hc⟩ := List.map_eq_singleton_iff.1 heq
    have hmany := isMany_exactToken c
    simp [hc, isMany] at hmany
  have hall : (chars.map exactToken).all Part.isChar = chars.all fun c =>
      !isSpecial c := by
    simp [List.all_map, Function.comp_def, isChar_exactToken]
  rw [Part.ofChars?, tokens?_escapeChars, Option.map_some, if_neg hdeep, hall,
    exactPart, String.toList_ofList]
  split
  · rename_i hplain
    rw [escapeChars_eq_self hplain]
  · rfl

private theorem ofChars?_front (front : String) :
    Part.ofChars? (escapeChars front.toList ++ ['*']) =
      some (frontPart front) := by
  rw [Part.ofChars?, tokens?_escapeChars_star, Option.map_some, if_neg, if_neg]
  · rfl
  · simp [Part.isChar]
  · intro heq
    have hlast := congrArg List.getLast? heq
    simp at hlast

theorem accepts_exactPart (piece name : String) :
    (exactPart piece).accepts name = decide (name = piece) := by
  unfold exactPart
  split
  · rfl
  · rw [Part.accepts, acceptsByRows_eq, accepts_exactTokens]
    simp [String.toList_inj]

theorem accepts_frontPart (front name : String) :
    (frontPart front).accepts name = beginsWith front name := by
  rw [frontPart, Part.accepts, acceptsByRows_eq, accepts_front, beginsWith]

private theorem splitAt_escapeChars (chars : List Char) :
    Text.splitAt (fun c => c = '/') (escapeChars chars) =
      (Text.splitAt (fun c => c = '/') chars).map escapeChars := by
  induction chars with
  | nil => rfl
  | cons c rest ih =>
      obtain ⟨first, others, hpieces⟩ := List.exists_cons_of_ne_nil
        (Text.splitAt_ne_nil (fun c => decide (c = '/')) rest)
      by_cases hslash : c = '/'
      · subst hslash
        have hspecial : isSpecial '/' = false := rfl
        simp [escapeChars, hspecial, Text.splitAt, ih]
      · by_cases hspecial : isSpecial c = true <;>
          simp [escapeChars, hspecial, Text.splitAt, ih, hslash, hpieces]

/-! ## The pattern of a directory -/

/-- The pieces that a pattern keeps of a path, without what stands before its
first slash. -/
def patternPieces (path : Path) : List String :=
  if path.isAbsolute then path.pieces.tail else path.pieces

private theorem mapM_ofChars? (pieces : List (List Char)) :
    (pieces.map escapeChars).mapM Part.ofChars? =
      some ((pieces.map String.ofList).map exactPart) := by
  induction pieces with
  | nil => rfl
  | cons piece rest ih => simp [List.mapM_cons, ofChars?_escapeChars, ih]

private theorem mapM_ofChars?_append {others : List (List Char)}
    {parts : List Part} (hparts : others.mapM Part.ofChars? = some parts)
    (pieces : List (List Char)) :
    (pieces.map escapeChars ++ others).mapM Part.ofChars? =
      some ((pieces.map String.ofList).map exactPart ++ parts) := by
  rw [List.mapM_append, mapM_ofChars?, hparts]
  rfl

private theorem escapeChars_slash (chars rest : List Char) :
    escapeChars (chars ++ '/' :: rest) = escapeChars chars ++ '/' ::
    escapeChars rest := by
  rw [escapeChars_append]
  rfl

private theorem pieces_escapeChars_slash (chars : List Char)
    {suffix : List Char}
    (hlast : (Text.splitAt (fun c => decide (c = '/')) suffix).getLast? ≠
      some []) :
    Pattern.pieces (escapeChars chars ++ '/' :: suffix) =
      (Text.splitAt (fun c => c = '/') chars).map escapeChars ++
        Text.splitAt (fun c => c = '/') suffix := by
  have hsplit :
      Text.splitAt (fun c => decide (c = '/')) (escapeChars chars ++ '/' ::
        suffix) =
      (Text.splitAt (fun c => decide (c = '/')) chars).map escapeChars ++
        Text.splitAt (fun c => decide (c = '/')) suffix := by
    rw [Text.splitAt_append_cons _ _ rfl, splitAt_escapeChars]
  obtain ⟨last, hsome⟩ := Option.isSome_iff_exists.1
    (List.getLast?_isSome.2 (Text.splitAt_ne_nil
      (fun c => decide (c = '/')) suffix))
  simp only [Pattern.pieces, hsplit]
  rw [if_neg]
  rwa [List.getLast?_append, hsome, Option.some_or, ← hsome]

/-- How the pattern of a directory and a suffix is read: by the pieces of the
directory, which stand for themselves, and then by the parts of the suffix. -/
theorem ofText?_patternIn_of {directory : Path} (hne : directory.text ≠ "")
    {suffix : String} {parts : List Part}
    (hread :
      (tokens?
        (escapeChars directory.text.toList ++ '/' :: suffix.toList)).isSome =
        true)
    (hlast : (Text.splitAt (fun c => decide (c = '/')) suffix.toList).getLast? ≠
      some [])
    {c : Char} (hend : suffix.toList.getLast? = some c) (hslash : c ≠ '/')
    (hparts : (Text.splitAt (fun c => decide (c = '/')) suffix.toList).mapM
      Part.ofChars? = some parts) :
    Pattern.ofText? (patternIn directory suffix) = some
      { absolute := directory.isAbsolute
        parts := (patternPieces directory).map exactPart ++ parts
        directories := false } := by
  have hchars : (patternIn directory suffix).toList =
      escapeChars directory.text.toList ++ '/' :: suffix.toList := by
    simp [patternIn, escape]
  obtain ⟨tokens, htokens⟩ := Option.isSome_iff_exists.1 hread
  have hdirectories :
      decide
        ((escapeChars directory.text.toList ++ '/' :: suffix.toList).getLast? =
      some '/') = false := by
    simp [List.getLast?_append, List.getLast?_cons, hend, hslash]
  rw [Pattern.ofText?, hchars, htokens]
  simp only [Option.bind_eq_bind, Option.bind_some, hdirectories]
  obtain ⟨c, rest, htext⟩ := List.exists_cons_of_ne_nil (by simpa using hne :
    directory.text.toList ≠ [])
  by_cases habsolute : c = '/'
  · subst habsolute
    have hchars : escapeChars directory.text.toList ++ '/' :: suffix.toList =
        '/' :: (escapeChars rest ++ '/' :: suffix.toList) := by
      rw [htext]
      rfl
    have hisAbsolute : directory.isAbsolute = true := by
      simp [Path.isAbsolute, htext]
    have hpieces : patternPieces directory =
        (Text.splitAt (fun c => decide (c = '/')) rest).map String.ofList := by
      simp [patternPieces, hisAbsolute, Path.pieces, htext, Text.splitAt]
    simp only [hchars, List.head?_cons, decide_true, if_true, List.tail_cons,
      pieces_escapeChars_slash rest hlast]
    rw [if_neg (by simp [Text.splitAt_ne_nil]), mapM_ofChars?_append hparts,
      hpieces, hisAbsolute]
    rfl
  · have hhead :
        (escapeChars directory.text.toList ++ '/' :: suffix.toList).head? ≠
          some '/' := by
      rw [htext, escapeChars]
      split
      · simp
      · simpa using habsolute
    have hisAbsolute : directory.isAbsolute = false := by
      simp [Path.isAbsolute, htext, habsolute]
    have hpieces : patternPieces directory =
        (Text.splitAt (fun c => decide (c = '/')) directory.text.toList).map
          String.ofList := by
      simp [patternPieces, hisAbsolute, Path.pieces]
    simp only [decide_eq_false hhead, Bool.false_eq_true, if_false,
      pieces_escapeChars_slash directory.text.toList hlast]
    rw [if_neg (by simp [Text.splitAt_ne_nil]), mapM_ofChars?_append hparts,
      hpieces, hisAbsolute]
    rfl

theorem ofText?_patternIn {directory : Path} (hne : directory.text ≠ "")
    {front : String}
    (hplain : front.toList.all (fun c => !isSpecial c) = true)
    (hslash : '/' ∉ front.toList) :
    Pattern.ofText? (patternIn directory (front ++ "*")) = some
      { absolute := directory.isAbsolute
        parts := (patternPieces directory).map exactPart ++ [frontPart front]
        directories := false } := by
  have hfront : (front ++ "*").toList = escapeChars front.toList ++ ['*'] := by
    simp [escapeChars_eq_self hplain]
  have hsplit : Text.splitAt (fun c => decide (c = '/')) (front ++ "*").toList =
      [escapeChars front.toList ++ ['*']] := by
    rw [hfront]
    refine Text.splitAt_eq_singleton fun c hc => ?_
    rw [escapeChars_eq_self hplain] at hc
    rcases List.mem_append.1 hc with hc | hc
    · simpa using fun heq : c = '/' => hslash (heq ▸ hc)
    · rw [List.mem_singleton.1 hc]
      rfl
  refine ofText?_patternIn_of hne ?_ ?_ ?_ (by decide : '*' ≠ '/') ?_
  · have hchars : escapeChars directory.text.toList ++ '/' ::
        (front ++ "*").toList =
        escapeChars (directory.text.toList ++ '/' :: front.toList) ++
        ['*'] := by
      rw [hfront, escapeChars_slash, List.append_assoc]
      rfl
    rw [hchars, tokens?_escapeChars_star, Option.isSome_some]
  · rw [hsplit]
    simp
  · simp [hfront]
  · rw [hsplit]
    simp [ofChars?_front]

/-! ## The pattern of everything below a directory -/

private theorem tokens?_escapeChars_below (chars : List Char) :
    (tokens? (escapeChars chars ++ "/**/*".toList)).isSome = true := by
  have hlength := length_le_length_escapeChars chars
  obtain ⟨fuel, hfuel⟩ :
      ∃ fuel, (escapeChars chars ++ "/**/*".toList).length + 1 = chars.length +
        (fuel + 6) := by
    refine ⟨(escapeChars chars).length - chars.length, ?_⟩
    rw [List.length_append, show "/**/*".toList.length = 5 by decide]
    omega
  obtain ⟨front, hread⟩ :=
    readTokens?_escapeChars chars "/**/*".toList (fuel + 6) true
  rw [← hfuel] at hread
  rw [tokens?, hread, Option.isSome_map]
  rfl

/-- Everything below a directory: any number of directories, and then any
name. -/
theorem ofText?_patternIn_below {directory : Path} (hne : directory.text ≠ "") :
    Pattern.ofText? (patternIn directory "**/*") = some
      { absolute := directory.isAbsolute
        parts := (patternPieces directory).map exactPart ++ [.deep,
          .wild [.star]]
        directories := false } :=
  ofText?_patternIn_of hne (tokens?_escapeChars_below _) (by decide) rfl
    (by decide : '*' ≠ '/') (by decide)

end JobChain.Glob
