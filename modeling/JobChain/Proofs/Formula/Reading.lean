import JobChain.Proofs.Formula.Taken

/-!
# Formulas that are read

A text is read as a formula exactly if it writes the formula. By the rules, one
after another, the reader of a level takes all that the rule derives, if what
follows may stand behind that level.
-/

namespace JobChain.Formula

/-! ## First characters -/

def Token.isFirst : Token → Bool
  | .literal _ | .path _ | .opening => true
  | _ => false

private theorem isSpace_of_lt {c : Char}
    (h : '!'.toNat < c.toNat) : isSpace c = false := by
  have hne : ∀ space : Char, space.toNat ≤ '!'.toNat → c ≠ space := by
    rintro space hle rfl
    omega
  simp [isSpace, hne ' ' (by decide), hne '\t' (by decide),
    hne '\r' (by decide), hne '\n' (by decide)]

private theorem Token.Spells.exists_first {token : Token} {chars : List Char}
    (h : token.Spells chars) (hfirst : token.isFirst = true) :
    ∃ c others, chars = c :: others ∧ '!'.toNat < c.toNat ∧ c ≠ '=' := by
  cases h with
  | symbol hsymbol =>
      cases token with
      | literal value =>
          rcases of_symbol?_literal hsymbol with ⟨-, rfl⟩ | ⟨-, rfl⟩ | ⟨-, rfl⟩
          · exact ⟨'t', _, rfl, by decide⟩
          · exact ⟨'f', _, rfl, by decide⟩
          · exact ⟨'n', _, rfl, by decide⟩
      | path names => cases hsymbol
      | opening => exact ⟨'(', [], (Option.some.inj hsymbol).symm, by decide⟩
      | _ => cases hfirst
  | numeral h _ =>
      obtain ⟨c, others, rfl⟩ := List.exists_cons_of_ne_nil h.whole_ne
      have hdigit :=
        Char.isDigit_iff_toNat.1 (h.isDigit_whole c List.mem_cons_self)
      rw [h.chars_eq]
      rcases h.sign_eq with rfl | rfl
      · refine ⟨c, _, rfl, lt_of_lt_of_le (by decide) hdigit.1, ?_⟩
        rintro rfl
        exact absurd hdigit.2 (by decide)
      · exact ⟨'-', _, rfl, by decide⟩
  | text hquote _ =>
      rcases hquote with rfl | rfl
      · exact ⟨_, _, rfl, by decide⟩
      · exact ⟨_, _, rfl, by decide⟩
  | path hident _ _ =>
      obtain ⟨c, others, rfl, hstart, -⟩ := hident.exists_cons
      have hletter := le_of_isIdentStart hstart
      refine ⟨c, _, rfl, lt_of_lt_of_le (by decide) hletter, ?_⟩
      rintro rfl
      exact absurd hletter (by decide)

theorem Token.Spells.exists_cons {token : Token} {chars : List Char}
    (h : token.Spells chars) : ∃ c others, chars = c :: others ∧
    isSpace c = false := by
  by_cases hfirst : token.isFirst = true
  · obtain ⟨c, others, heq, hlt, -⟩ := h.exists_first hfirst
    exact ⟨c, others, heq, isSpace_of_lt hlt⟩
  · cases h with
    | symbol hsymbol =>
        unfold Token.symbol? at hsymbol
        split at hsymbol <;> cases hsymbol <;> exact ⟨_, _, rfl, by decide⟩
    | numeral => exact absurd rfl hfirst
    | text => exact absurd rfl hfirst
    | path => exact absurd rfl hfirst

private theorem skipSpace_token {token : Token} {spaces text : List Char}
    (hspaces : IsSpaces spaces) (htoken : token.Spells text)
    (rest : List Char) :
    skipSpace (spaces ++ (text ++ rest)) = text ++ rest := by
  obtain ⟨c, others, rfl, hc⟩ := htoken.exists_cons
  rw [skipSpace_append hspaces, List.cons_append, skipSpace_of_not hc]

theorem Spelled.length_le {tokens : List Token} {chars : List Char}
    (h : Spelled tokens chars) : tokens.length ≤ chars.length := by
  induction h with
  | nil => exact le_rfl
  | cons _ htoken _ ih =>
      obtain ⟨c, others, rfl, -⟩ := htoken.exists_cons
      simp only [List.length_append, List.length_cons]
      omega

/-- A formula starts with an operand, or with an exclamation mark where its
level has one. -/
theorem Derives.exists_first {level : Level} {formula : Formula}
    {tokens : List Token} (h : Derives level formula tokens) : ∃ token others,
    tokens = token :: others ∧
    (token.isFirst = true ∨ token = .not ∧ level ≠ .operand ∧
      level ≠ .comparison) := by
  induction h with
  | literal | path | nested => exact ⟨_, _, rfl, .inl rfl⟩
  | not => exact ⟨_, _, rfl, .inr ⟨rfl, by decide⟩⟩
  | plain _ ih =>
      obtain ⟨token, others, rfl, hfirst⟩ := ih
      exact ⟨_, _, rfl, .inl (by simpa using hfirst)⟩
  | alone _ ih | single _ ih | one _ ih | compared _ _ _ ih | and _ _ ih | or _ _ ih =>
      obtain ⟨token, others, rfl, hfirst⟩ := ih
      exact ⟨_, _, rfl, by simpa using hfirst⟩

theorem Derives.exists_head {level : Level} {formula : Formula}
    {tokens : List Token} {front : List Char} (h : Derives level formula tokens)
    (hspelled : Spelled tokens front) : ∃ spaces c others, IsSpaces spaces ∧
    front = spaces ++ c :: others ∧ isSpace c = false ∧ c ≠ '=' ∧
      (c = '!' → level ≠ .operand ∧ level ≠ .comparison) := by
  obtain ⟨token, behind, rfl, hfirst⟩ := h.exists_first
  obtain ⟨spaces, text, rest, hspaces, htoken, -, rfl⟩ := hspelled.exists_cons
  rcases hfirst with hfirst | ⟨rfl, hlevel⟩
  · obtain ⟨c, others, rfl, hlt, hne⟩ := htoken.exists_first hfirst
    refine ⟨spaces, c, others ++ rest, hspaces, rfl, isSpace_of_lt hlt, hne, ?_⟩
    rintro rfl
    exact absurd hlt (lt_irrefl _)
  · obtain rfl := htoken.eq_of_symbol? rfl (by simp)
    exact ⟨spaces, '!', rest, hspaces,
      rfl, by decide, by decide, fun _ => hlevel⟩

private theorem Derives.head?_ne {level : Level} {formula : Formula}
    {tokens : List Token} {front : List Char} (h : Derives level formula tokens)
    (hspelled : Spelled tokens front) (rest : List Char) :
    ∀ c ∈ (front ++ rest).head?, c ≠ '=' := by
  obtain ⟨spaces, c, others, hspaces, rfl, -, hne, -⟩ := h.exists_head hspelled
  cases spaces with
  | nil => simpa using hne
  | cons d more =>
      have hd : isSpace d = true := hspaces d List.mem_cons_self
      intro e he
      obtain rfl := Option.some.inj he
      rintro rfl
      cases hd

/-! ## What follows a formula -/

def Level.follow : Level → List Char
  | .operand => [')', '|', '&', '=', '!', '<', '>']
  | .comparison | .negation => [')', '|', '&']
  | .conjunction => [')', '|']
  | .disjunction => [')']

def Follows (level : Level) (rest : List Char) : Prop :=
  ∀ c ∈ (skipSpace rest).head?, c ∈ level.follow

private theorem Follows.of_subset {level lower : Level} {rest : List Char}
    (h : Follows level rest)
    (hsubset : level.follow ⊆ lower.follow) : Follows lower rest :=
  fun c hc => hsubset (h c hc)

private theorem follows_token {level : Level} {token : Token} {c : Char}
    {spaces text : List Char} (hspaces : IsSpaces spaces)
    (htoken : token.Spells (c :: text)) (hc : c ∈ level.follow)
    (rest : List Char) : Follows level (spaces ++ (c :: text ++ rest)) := by
  rw [Follows, skipSpace_token hspaces htoken]
  intro d hd
  obtain rfl := Option.some.inj hd
  exact hc

private theorem Follows.endsOperand {rest : List Char}
    (h : Follows .operand rest) : EndsOperand rest := by
  have hspace : ∀ c ∈ [' ', '\t', '\r', '\n'], isIdentChar c = false ∧
      c.isDigit = false ∧ c ≠ '.' := by
    simp only [List.forall_mem_cons, List.not_mem_nil, false_implies,
      implies_true, and_true]
    decide
  have hmark : ∀ c ∈ Level.operand.follow, isIdentChar c = false ∧
      c.isDigit = false ∧ c ≠ '.' := by
    simp only [Level.follow, List.forall_mem_cons, List.not_mem_nil,
      false_implies, implies_true, and_true]
    decide
  cases rest with
  | nil => simp [EndsOperand]
  | cons c others =>
      intro d hd
      obtain rfl := Option.some.inj hd
      by_cases hc : isSpace c = true
      · exact hspace c (by simpa [isSpace, or_assoc] using hc)
      · rw [Bool.not_eq_true] at hc
        exact hmark c (h c (by rw [skipSpace_of_not hc]; rfl))

/-! ## What the readers make of a formula -/

section

variable {nested : List Char → Option (Formula × List Char)}

/-- The reader of a level reads the formula from the front of a text that goes
on with what may follow it. The readers of the two chains go on with their chain
behind it. -/
def IsRead (nested : List Char → Option (Formula × List Char))
    (formula : Formula) (front : List Char) : Level → Prop
  | .operand => ∀ rest, Follows .operand rest →
      readOperand nested (front ++ rest) = some (formula, rest)
  | .comparison => ∀ rest, Follows .comparison rest →
      readCompared nested (front ++ rest) = some (formula, rest)
  | .negation => ∀ rest, Follows .negation rest → ∀ fuel, front.length ≤ fuel →
      readNegated nested fuel (front ++ rest) = some (formula, rest)
  | .conjunction => ∀ rest, Follows .negation rest →
      ∃ fuel, rest.length ≤ fuel ∧ readConjunction nested (front ++ rest) =
        some (readChain (fun chars => readNegated nested chars.length chars)
          ['&', '&'] .and fuel formula rest)
  | .disjunction => ∀ rest, Follows .conjunction rest →
      ∃ fuel, rest.length ≤ fuel ∧ readDisjunction nested (front ++ rest) =
        some (readChain (readConjunction nested) ['|',
          '|'] .or fuel formula rest)

/-! ### Operands -/

private theorem isRead_literal {value : Json} {spaces text : List Char}
    (hspaces : IsSpaces spaces) (htoken : (Token.literal value).Spells text) :
    IsRead nested (.literal value) (spaces ++ text) .operand := by
  intro rest hrest
  rw [List.append_assoc, readOperand, skipSpace_token hspaces htoken]
  simp only [readLiteral_append htoken hrest.endsOperand]
  rfl

private theorem isRead_path {names : String} {spaces text : List Char}
    (hspaces : IsSpaces spaces) (htoken : (Token.path names).Spells text) :
    IsRead nested (.path names) (spaces ++ text) .operand := by
  intro rest hrest
  rw [List.append_assoc, readOperand, skipSpace_token hspaces htoken]
  cases htoken with
  | symbol hsymbol => cases hsymbol
  | @path first others hfirst hword hothers =>
      have hends : EndsWord (others.flatMap ('.' :: ·) ++ rest) :=
        endsWord_flatMap hrest.endsOperand.endsWord
      have hliteral : readLiteral (dotted first others ++ rest) = none := by
        rw [dotted, List.append_assoc]
        exact readLiteral_ident hfirst hword hends
      simp only [hliteral, readPath_append hfirst hothers hrest.endsOperand]
      rfl

private theorem isRead_nested {formula : Formula}
    {before inner behind : List Char} (hbefore : IsSpaces before)
    (hbehind : IsSpaces behind)
    (h : ∀ rest, Follows .disjunction rest →
      nested (inner ++ rest) = some (formula, rest)) :
    IsRead nested formula (before ++ '(' :: (inner ++ (behind ++ [')'])))
      .operand := by
  intro rest _
  have hopening : Token.opening.Spells ['('] := .symbol rfl
  have hclosing : Token.closing.Spells [')'] := .symbol rfl
  have hskip :
      skipSpace (before ++ '(' :: (inner ++ (behind ++ [')'])) ++ rest) =
      '(' :: (inner ++ (behind ++ ([')'] ++ rest))) := by
    have heq :=
      skipSpace_token hbefore hopening (inner ++ (behind ++ ([')'] ++ rest)))
    simpa only [List.append_assoc, List.cons_append, List.nil_append] using heq
  have hliteral : readLiteral ('(' :: (inner ++ (behind ++ ([')'] ++ rest)))) =
      none := rfl
  have hpath : readPath ('(' :: (inner ++ (behind ++ ([')'] ++ rest)))) =
      none := rfl
  have hread : nested (inner ++ (behind ++ ([')'] ++ rest))) =
      some (formula, behind ++ ([')'] ++ rest)) :=
    h _ (follows_token hbehind hclosing (by decide) _)
  have hparenthesised :
      readParenthesised nested ('(' :: (inner ++ (behind ++ ([')'] ++ rest)))) =
      some (formula, rest) := by
    have hsame := skipSpace_of_not (by decide : isSpace '(' = false)
    rw [readParenthesised, hsame]
    simp only [hread, Option.bind_eq_bind, Option.bind_some,
      skipSpace_token hbehind hclosing]
    rfl
  rw [readOperand, hskip]
  simp only [hliteral, hpath, hparenthesised]
  rfl

/-! ### Comparisons -/

variable {formula left right : Formula} {front back : List Char}

theorem IsRead.alone (h : IsRead nested formula front .operand) :
    IsRead nested formula front .comparison := by
  intro rest hrest
  have hnone : readComparison (skipSpace rest) = none := by
    refine readComparison_eq_none fun c hc => ?_
    have hall : ∀ c ∈ Level.comparison.follow, c ∉ ['=', '!', '<', '>'] := by
      simp [Level.follow]
    exact hall c (hrest c hc)
  rw [readCompared, h rest (hrest.of_subset (by decide))]
  simp [hnone]

theorem IsRead.compared {comparison : Comparison} {spaces symbol : List Char}
    (hleft : IsRead nested left front .operand)
    (hright : IsRead nested right back .operand) (hspaces : IsSpaces spaces)
    (hsymbol : (Token.comparison comparison).symbol? = some symbol)
    (hback : ∀ rest, ∀ c ∈ (back ++ rest).head?, c ≠ '=') :
    IsRead nested (.compare left comparison right) (front ++
      (spaces ++ (symbol ++ back))) .comparison := by
  intro rest hrest
  have htoken : (Token.comparison comparison).Spells symbol := .symbol hsymbol
  have hfollows : Follows .operand (spaces ++ (symbol ++ (back ++ rest))) := by
    cases comparison <;> cases hsymbol <;>
      exact follows_token hspaces htoken (by decide) _
  have hskip := skipSpace_token hspaces htoken (back ++ rest)
  have hcomparison := readComparison_append hsymbol (hback rest)
  rw [List.append_assoc, List.append_assoc, List.append_assoc, readCompared,
    hleft _ hfollows]
  simp [hskip, hcomparison, hright rest (hrest.of_subset (by decide))]

/-! ### Negations -/

theorem IsRead.plain (h : IsRead nested formula front .comparison)
    (hhead : ∀ rest, ∀ c ∈ (skipSpace (front ++ rest)).head?, c ≠ '!') :
    IsRead nested formula front .negation := by
  intro rest hrest fuel _
  have hread := h rest hrest
  cases fuel with
  | zero => exact hread
  | succ fuel =>
      rw [readNegated]
      split
      · rename_i hmark
        exact absurd rfl (hhead rest '!' (by rw [hmark]; rfl))
      · rename_i hmark
        exact absurd rfl (hhead rest '!' (by rw [hmark]; rfl))
      · rw [readCompared_skipSpace, hread]

theorem IsRead.not {spaces : List Char}
    (h : IsRead nested formula front .negation) (hspaces : IsSpaces spaces)
    (hhead : ∀ rest, ∀ c ∈ (front ++ rest).head?, c ≠ '=') :
    IsRead nested (.not formula) (spaces ++ '!' :: front) .negation := by
  intro rest hrest fuel hfuel
  have hskip : skipSpace (spaces ++ '!' :: front ++ rest) = '!' ::
      (front ++ rest) := by
    have heq := skipSpace_token hspaces (.symbol rfl : Token.not.Spells _)
      (front ++ rest)
    simpa using heq
  rw [List.length_append, List.length_cons] at hfuel
  cases fuel with
  | zero => omega
  | succ fuel =>
      have hread := h rest hrest fuel (by omega)
      rw [readNegated, hskip]
      cases hbehind : front ++ rest with
      | nil => rw [hbehind] at hread; simp [hread]
      | cons c others =>
          have hne : c ≠ '=' := hhead rest c (by rw [hbehind]; rfl)
          rw [hbehind] at hread
          simp [hne, hread]

/-! ### Chains -/

/-- A chain that has the next operand before it goes on behind that operand,
with it joined. -/
theorem readChain_next {operand : List Char → Option (Formula × List Char)}
    {join : Formula → Formula → Formula} {token : Token}
    {spaces symbol rest : List Char} {read : Option (Formula × List Char)}
    (hspaces : IsSpaces spaces) (htoken : token.Spells symbol)
    (hnext : operand (back ++ rest) = some (right, rest))
    (hread : ∃ fuel, (spaces ++ (symbol ++ (back ++ rest))).length ≤ fuel ∧
      read =
        some
          (readChain operand symbol join fuel left
            (spaces ++ (symbol ++ (back ++ rest))))) :
    ∃ fuel, rest.length ≤ fuel ∧
      read =
        some (readChain operand symbol join fuel (join left right) rest) := by
  obtain ⟨fuel, hfuel, rfl⟩ := hread
  obtain ⟨c, others, rfl, -⟩ := htoken.exists_cons
  simp only [List.length_append, List.length_cons] at hfuel
  obtain ⟨less, rfl⟩ : ∃ less, fuel = less + 1 := ⟨fuel - 1, by omega⟩
  have hdrop : dropText? (c :: others) (c :: others ++ (back ++ rest)) =
      some (back ++ rest) :=
    dropText?_eq_some_iff.2 rfl
  refine ⟨less, by omega, ?_⟩
  rw [readChain, skipSpace_token hspaces htoken, hdrop]
  simp only [Option.bind_eq_bind, Option.bind_some, hnext]

private theorem readChain_stop
    {operand : List Char → Option (Formula × List Char)}
    {join : Formula → Formula → Formula} {c : Char} {symbol rest : List Char}
    (hrest : ∀ d ∈ (skipSpace rest).head?, d ≠ c) (fuel : Nat) :
    readChain operand (c :: symbol) join fuel left rest = (left, rest) := by
  cases fuel with
  | zero => rfl
  | succ fuel =>
      have hdrop : dropText? (c :: symbol) (skipSpace rest) = none := by
        cases hskip : skipSpace rest with
        | nil => rfl
        | cons d others => exact if_neg (hrest d (by rw [hskip]; rfl)).symm
      rw [readChain, hdrop]
      rfl

theorem IsRead.single (h : IsRead nested formula front .negation) :
    IsRead nested formula front .conjunction := by
  intro rest hrest
  have hread := h rest hrest (front ++ rest).length (by simp)
  exact ⟨rest.length, le_rfl, by rw [readConjunction, hread]; rfl⟩

private theorem IsRead.readConjunction_eq
    (h : IsRead nested formula front .conjunction) {rest : List Char}
    (hrest : Follows .conjunction rest) :
    readConjunction nested (front ++ rest) = some (formula, rest) := by
  have hmark : '&' ∉ Level.conjunction.follow := by decide
  obtain ⟨fuel, -, hread⟩ := h rest (hrest.of_subset (by decide))
  rw [hread, readChain_stop fun d hd => ne_of_mem_of_not_mem (hrest d hd) hmark]

private theorem IsRead.readDisjunction_eq
    (h : IsRead nested formula front .disjunction) {rest : List Char}
    (hrest : Follows .disjunction rest) :
    readDisjunction nested (front ++ rest) = some (formula, rest) := by
  have hmark : '|' ∉ Level.disjunction.follow := by decide
  obtain ⟨fuel, -, hread⟩ := h rest (hrest.of_subset (by decide))
  rw [hread, readChain_stop fun d hd => ne_of_mem_of_not_mem (hrest d hd) hmark]

theorem IsRead.and {spaces : List Char}
    (hleft : IsRead nested left front .conjunction)
    (hright : IsRead nested right back .negation) (hspaces : IsSpaces spaces) :
    IsRead nested (.and left right) (front ++ (spaces ++ (['&',
      '&'] ++ back))) .conjunction := by
  intro rest hrest
  have htoken : Token.and.Spells ['&', '&'] := .symbol rfl
  have hoperand := hright rest hrest (back ++ rest).length (by simp)
  have hread :=
    hleft _ (follows_token hspaces htoken (by decide) (back ++ rest))
  simp only [List.append_assoc]
  exact readChain_next hspaces htoken hoperand hread

theorem IsRead.one (h : IsRead nested formula front .conjunction) :
    IsRead nested formula front .disjunction := by
  intro rest hrest
  exact ⟨rest.length,
    le_rfl, by rw [readDisjunction, h.readConjunction_eq hrest]; rfl⟩

theorem IsRead.or {spaces : List Char}
    (hleft : IsRead nested left front .disjunction)
    (hright : IsRead nested right back .conjunction)
    (hspaces : IsSpaces spaces) :
    IsRead nested (.or left right) (front ++ (spaces ++ (['|',
      '|'] ++ back))) .disjunction := by
  intro rest hrest
  have htoken : Token.or.Spells ['|', '|'] := .symbol rfl
  have hoperand := hright.readConjunction_eq hrest
  have hread :=
    hleft _ (follows_token hspaces htoken (by decide) (back ++ rest))
  simp only [List.append_assoc]
  exact readChain_next hspaces htoken hoperand hread

end

/-! ## Whole formulas -/

private theorem Derives.isRead {level : Level} {formula : Formula}
    {tokens : List Token} (h : Derives level formula tokens) {depth : Nat}
    {front : List Char} (hdepth : tokens.length ≤ depth)
    (hspelled : Spelled tokens front) :
    IsRead (readNested depth) formula front level := by
  induction h generalizing depth front with
  | literal value =>
      obtain ⟨spaces, text, hspaces, htoken, rfl⟩ := hspelled.exists_single
      exact isRead_literal hspaces htoken
  | path names =>
      obtain ⟨spaces, text, hspaces, htoken, rfl⟩ := hspelled.exists_single
      exact isRead_path hspaces htoken
  | nested h ih =>
      obtain ⟨before, text, others, hbefore, hopening, hothers, rfl⟩ :=
        hspelled.exists_cons
      obtain ⟨inner, last, hinner, hlast, rfl⟩ := hothers.exists_append
      obtain ⟨behind, text', hbehind, hclosing, rfl⟩ := hlast.exists_single
      obtain rfl := hopening.eq_of_symbol? rfl (by simp)
      obtain rfl := hclosing.eq_of_symbol? rfl (by simp)
      rw [List.length_cons, List.length_append] at hdepth
      -- What is in the parentheses has fewer tokens, so the depth that is left
      -- is enough for it.
      obtain ⟨less, rfl⟩ : ∃ less, depth = less + 1 := ⟨depth - 1, by omega⟩
      have hread := @ih less inner (by omega) hinner
      exact isRead_nested hbefore hbehind fun rest => hread.readDisjunction_eq
  | alone _ ih => exact (ih hdepth hspelled).alone
  | compared comparison hleft hright ihleft ihright =>
      obtain ⟨front, others, hfront, hothers, rfl⟩ := hspelled.exists_append
      obtain ⟨spaces, symbol, back, hspaces, htoken, hback, rfl⟩ :=
        hothers.exists_cons
      rw [List.length_append, List.length_cons] at hdepth
      cases htoken with
      | symbol hsymbol =>
          exact (ihleft (by omega) hfront).compared
            (ihright (by omega) hback) hspaces hsymbol (hright.head?_ne hback)
  | plain hcompared ih =>
      refine (ih hdepth hspelled).plain fun rest c hc => ?_
      obtain ⟨spaces, d, others, hspaces, rfl, hd, -, hmark⟩ :=
        hcompared.exists_head hspelled
      rw [List.append_assoc, List.cons_append, skipSpace_append hspaces,
        skipSpace_of_not hd] at hc
      obtain rfl := Option.some.inj hc
      exact fun heq => absurd rfl (hmark heq).2
  | not h ih =>
      obtain ⟨spaces, text, front, hspaces, hmark, hfront, rfl⟩ :=
        hspelled.exists_cons
      obtain rfl := hmark.eq_of_symbol? rfl (by simp)
      rw [List.length_cons] at hdepth
      exact (ih (by omega) hfront).not hspaces (h.head?_ne hfront)
  | single _ ih => exact (ih hdepth hspelled).single
  | and _ _ ihleft ihright =>
      obtain ⟨front, others, hfront, hothers, rfl⟩ := hspelled.exists_append
      obtain ⟨spaces, text, back, hspaces, hmark, hback, rfl⟩ :=
        hothers.exists_cons
      obtain rfl := hmark.eq_of_symbol? rfl (by simp)
      rw [List.length_append, List.length_cons] at hdepth
      exact (ihleft (by omega) hfront).and (ihright (by omega) hback) hspaces
  | one _ ih => exact (ih hdepth hspelled).one
  | or _ _ ihleft ihright =>
      obtain ⟨front, others, hfront, hothers, rfl⟩ := hspelled.exists_append
      obtain ⟨spaces, text, back, hspaces, hmark, hback, rfl⟩ :=
        hothers.exists_cons
      obtain rfl := hmark.eq_of_symbol? rfl (by simp)
      rw [List.length_append, List.length_cons] at hdepth
      exact (ihleft (by omega) hfront).or (ihright (by omega) hback) hspaces

theorem ofText?_of_writes {source : String} {formula : Formula}
    (h : Writes formula source.toList) : ofText? source = some formula := by
  obtain ⟨tokens, front, spaces, hderives, hspelled, hspaces, hsource⟩ := h
  have hdepth : tokens.length ≤ source.length := by
    have hle := hspelled.length_le
    rw [← String.length_toList, hsource, List.length_append]
    omega
  have hfollows : Follows .disjunction spaces := by
    simp [Follows, skipSpace_of_isSpaces hspaces]
  have hread : readNested (source.length + 1) source.toList =
      some (formula, spaces) := by
    rw [hsource]
    exact (hderives.isRead hdepth hspelled).readDisjunction_eq hfollows
  simp [ofText?, hread, skipSpace_of_isSpaces hspaces]

/-! ## Formulas that have a text -/

def HasText (level : Level) (formula : Formula) : Prop :=
  ∃ tokens chars, Derives level formula tokens ∧ Spelled tokens chars

theorem HasText.nested {formula : Formula}
    (h : HasText .disjunction formula) : HasText .operand formula := by
  obtain ⟨tokens, chars, hderives, hspelled⟩ := h
  have hopening :=
    Spelled.single (List.forall_mem_nil _)
      (.symbol rfl : Token.opening.Spells _)
  have hclosing :=
    Spelled.single (List.forall_mem_nil _)
      (.symbol rfl : Token.closing.Spells _)
  exact ⟨_, _, .nested hderives, hopening.append (hspelled.append hclosing)⟩

theorem HasText.join {left right joined : Formula} {token : Token}
    {symbol : List Char} (hleft : HasText .operand left)
    (hright : HasText .operand right) (htoken : token.Spells symbol)
    (hjoin : ∀ {front back : List Token}, Derives .operand left front →
      Derives .operand right back →
      Derives .disjunction joined (front ++ token :: back)) :
    HasText .operand joined := by
  obtain ⟨front, before, hfront, hbefore⟩ := hleft
  obtain ⟨back, behind, hback, hbehind⟩ := hright
  have hspelled := hbefore.append (.cons (List.forall_mem_nil _) htoken hbehind)
  exact HasText.nested ⟨_, _, hjoin hfront hback, hspelled⟩

/-- With each of its parts in parentheses, a formula has a text if its literals
and paths have one. -/
theorem HasTokens.hasText {formula : Formula}
    (h : formula.HasTokens) : HasText .operand formula := by
  induction formula with
  | literal value =>
      obtain ⟨chars, htoken⟩ := h
      exact ⟨_, _, .literal value, .single (List.forall_mem_nil _) htoken⟩
  | path names =>
      obtain ⟨chars, htoken⟩ := h
      exact ⟨_, _, .path names, .single (List.forall_mem_nil _) htoken⟩
  | not formula ih =>
      obtain ⟨tokens, chars, hderives, hspelled⟩ := ih h
      have hmark :=
        Spelled.single (List.forall_mem_nil _)
          (.symbol rfl : Token.not.Spells _)
      exact HasText.nested
        ⟨_, _, .one (.single (.not (.plain (.alone hderives)))),
          hmark.append hspelled⟩
  | and left right ihleft ihright =>
      exact (ihleft h.1).join (ihright h.2) (.symbol rfl : Token.and.Spells _)
        fun hfront hback =>
          .one (.and (.single (.plain (.alone hfront))) (.plain (.alone hback)))
  | or left right ihleft ihright =>
      exact (ihleft h.1).join (ihright h.2) (.symbol rfl : Token.or.Spells _)
        fun hfront hback =>
          .or (.one (.single (.plain (.alone hfront))))
            (.single (.plain (.alone hback)))
  | compare left comparison right ihleft ihright =>
      obtain ⟨symbol, hsymbol⟩ : ∃ symbol,
          (Token.comparison comparison).symbol? = some symbol := by
        cases comparison <;> exact ⟨_, rfl⟩
      exact (ihleft h.1).join (ihright h.2) (.symbol hsymbol)
        fun hfront hback =>
          .one (.single (.plain (.compared comparison hfront hback)))

private theorem Derives.hasTokens {level : Level} {formula : Formula}
    {tokens : List Token} (h : Derives level formula tokens) {chars : List Char}
    (hspelled : Spelled tokens chars) : formula.HasTokens := by
  induction h generalizing chars with
  | literal | path =>
      obtain ⟨_, text, _, _, htoken, _⟩ := hspelled.exists_cons
      exact ⟨text, htoken⟩
  | nested _ ih =>
      obtain ⟨_, _, _, _, _, hothers, _⟩ := hspelled.exists_cons
      obtain ⟨_, _, hinner, _⟩ := hothers.exists_append
      exact ih hinner
  | alone _ ih | plain _ ih | single _ ih | one _ ih => exact ih hspelled
  | not _ ih =>
      obtain ⟨_, _, _, _, _, hothers, _⟩ := hspelled.exists_cons
      exact ih hothers
  | compared _ _ _ ihleft ihright | and _ _ ihleft ihright | or _ _ ihleft ihright =>
      obtain ⟨_, _, hfront, hothers, _⟩ := hspelled.exists_append
      obtain ⟨_, _, _, _, _, hback, _⟩ := hothers.exists_cons
      exact ⟨ihleft hfront, ihright hback⟩

/-- A text is read as a formula exactly if it writes the formula; so it writes
at most one. The formulas that have a text are those whose literals and paths
have one. -/
theorem ofText?_iff_writes :
    (∀ source formula, ofText? source = some formula ↔
      Writes formula source.toList) ∧
      (∀ chars formula other, Writes formula chars → Writes other chars →
        formula = other) ∧
      ∀ formula, (∃ source, ofText? source = some formula) ↔
        formula.HasTokens := by
  have hiff : ∀ source formula, ofText? source = some formula ↔
      Writes formula source.toList :=
    fun source formula => ⟨writes_of_ofText?, ofText?_of_writes⟩
  refine ⟨hiff, fun chars formula other h hother => ?_,
    fun formula => ⟨?_, fun h => ?_⟩⟩
  · have hchars : chars = (String.ofList chars).toList :=
      String.toList_ofList.symm
    rw [hchars, ← hiff] at h hother
    exact Option.some.inj (h.symm.trans hother)
  · rintro ⟨source, hread⟩
    obtain ⟨tokens, front, spaces, hderives, hspelled, -, -⟩ :=
      (hiff source formula).1 hread
    exact hderives.hasTokens hspelled
  · obtain ⟨tokens, chars, hderives, hspelled⟩ := h.hasText
    have hwhole : Derives .disjunction formula tokens :=
      .one (.single (.plain (.alone hderives)))
    have hchars : (String.ofList chars).toList = chars ++ [] := by
      rw [String.toList_ofList, List.append_nil]
    exact ⟨String.ofList chars, (hiff _ formula).2
      ⟨tokens, chars, [], hwhole, hspelled, List.forall_mem_nil _, hchars⟩⟩

example : ofText? "!a || b && (c.d)" =
    some (.or (.not (.path "a")) (.and (.path "b") (.path "c.d"))) := by
  decide +kernel

end JobChain.Formula
