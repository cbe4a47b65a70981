import JobChain.Proofs.Formula.Tokens

/-!
# What the readers of formulas take

Each reader takes from the front of a text what spells a formula of its level,
and returns that formula. So a text that is read as a formula writes it.
-/

namespace JobChain.Formula

/-- The text in front of the rest spells tokens that derive the formula. -/
def Taken (level : Level) (formula : Formula) (chars rest : List Char) : Prop :=
  ∃ tokens front, Derives level formula tokens ∧ Spelled tokens front ∧
    chars = front ++ rest

def IsSound (level : Level)
    (read : List Char → Option (Formula × List Char)) : Prop :=
  ∀ chars formula rest, read chars = some (formula, rest) →
    Taken level formula chars rest

theorem exists_single {token : Token} {symbol chars rest : List Char}
    (htoken : token.Spells symbol) (h : skipSpace chars = symbol ++ rest) :
    ∃ front, Spelled [token] front ∧ chars = front ++ rest := by
  obtain ⟨spaces, hspaces, heq⟩ := exists_spaces chars
  exact ⟨spaces ++ symbol,
    .single hspaces htoken, by rw [heq, h, List.append_assoc]⟩

private theorem exists_mark {token : Token} {c : Char} {chars rest : List Char}
    (htoken : token.Spells [c]) (h : skipSpace chars = c :: rest) :
    ∃ front, Spelled [token] front ∧ chars = front ++ rest :=
  exists_single htoken h

section

variable {nested : List Char → Option (Formula × List Char)}

private theorem isSound_readParenthesised
    (hnested : IsSound .disjunction nested) :
    IsSound .operand (readParenthesised nested) := by
  intro chars formula rest h
  unfold readParenthesised at h
  split at h
  · rename_i behind hopen
    obtain ⟨⟨inner, others⟩, hread, hclose⟩ := Option.bind_eq_some_iff.1 h
    dsimp only at hclose
    split at hclose
    · rename_i last hskip
      obtain ⟨rfl, rfl⟩ := Prod.mk.inj (Option.some.inj hclose)
      obtain ⟨tokens, front, hderives, hspelled, rfl⟩ := hnested _ _ _ hread
      obtain ⟨opening, hopening, rfl⟩ :=
        exists_mark (.symbol rfl : Token.opening.Spells _) hopen
      obtain ⟨closing, hclosing, rfl⟩ :=
        exists_mark (.symbol rfl : Token.closing.Spells _) hskip
      refine ⟨_, opening ++ (front ++ closing), .nested hderives,
        hopening.append (hspelled.append hclosing), ?_⟩
      simp only [List.append_assoc]
    · cases hclose
  · cases h

private theorem readParenthesised_skipSpace (chars : List Char) :
    readParenthesised nested (skipSpace chars) =
      readParenthesised nested chars := by
  rw [readParenthesised, readParenthesised, skipSpace_skipSpace]

private theorem isSound_readOperand (hnested : IsSound .disjunction nested) :
    IsSound .operand (readOperand nested) := by
  intro chars formula rest h
  simp only [readOperand, Option.orElse_eq_orElse, Option.orElse_eq_or,
    Option.or_eq_some_iff] at h
  rcases h with hliteral | ⟨hliteral, hpath | ⟨-, hparenthesised⟩⟩
  · obtain ⟨value, text, htoken, rfl, hskip⟩ := of_readLiteral hliteral
    obtain ⟨front, hspelled, rfl⟩ := exists_single htoken hskip
    exact ⟨_, front, .literal value, hspelled, rfl⟩
  · obtain ⟨first, others, behind, hfirst, hends, hothers, rfl, hword, hskip⟩ :=
      of_readPath hpath
    rw [hword] at hliteral
    have hkeyword : first ∉ keywords :=
      mem_keywords_of_readLiteral hliteral hends
    obtain ⟨front, hspelled, rfl⟩ :=
      exists_single (.path hfirst hkeyword hothers) hskip
    exact ⟨_, front, .path _, hspelled, rfl⟩
  · rw [readParenthesised_skipSpace] at hparenthesised
    exact isSound_readParenthesised hnested _ _ _ hparenthesised

private theorem isSound_readCompared (hnested : IsSound .disjunction nested) :
    IsSound .comparison (readCompared nested) := by
  intro chars formula rest h
  have hoperand := isSound_readOperand hnested
  obtain ⟨⟨left, behind⟩, hleft, hmore⟩ := Option.bind_eq_some_iff.1 h
  obtain ⟨front, text, hderives, hspelled, rfl⟩ := hoperand _ _ _ hleft
  simp only [Option.orElse_eq_orElse, Option.orElse_eq_or,
    Option.or_eq_some_iff] at hmore
  rcases hmore with hcompared | ⟨-, halone⟩
  · obtain ⟨⟨comparison, others⟩, hcomparison, hothers⟩ :=
      Option.bind_eq_some_iff.1 hcompared
    obtain ⟨⟨right, last⟩, hright, heq⟩ := Option.bind_eq_some_iff.1 hothers
    obtain ⟨rfl, rfl⟩ := Prod.mk.inj (Option.some.inj heq)
    obtain ⟨symbol, hsymbol, hskip⟩ := of_readComparison hcomparison
    obtain ⟨back, others, hderives', hspelled', rfl⟩ := hoperand _ _ _ hright
    obtain ⟨middle, hmiddle, rfl⟩ := exists_single (.symbol hsymbol) hskip
    refine ⟨_, text ++ (middle ++ others),
      .compared comparison hderives hderives',
      hspelled.append (hmiddle.append hspelled'), ?_⟩
    simp only [List.append_assoc]
  · obtain ⟨rfl, rfl⟩ := Prod.mk.inj (Option.some.inj halone)
    exact ⟨front, text, .alone hderives, hspelled, rfl⟩

theorem readCompared_skipSpace (chars : List Char) :
    readCompared nested (skipSpace chars) = readCompared nested chars := by
  rw [readCompared, readCompared, readOperand, readOperand, skipSpace_skipSpace]

private theorem isSound_readNegated (hnested : IsSound .disjunction nested)
    (fuel : Nat) : IsSound .negation (readNegated nested fuel) := by
  intro chars formula rest h
  induction fuel generalizing chars formula with
  | zero =>
      obtain ⟨tokens, front, hderives, hspelled, heq⟩ :=
        isSound_readCompared hnested _ _ _ h
      exact ⟨tokens, front, .plain hderives, hspelled, heq⟩
  | succ fuel ih =>
      rw [readNegated] at h
      split at h
      · cases h
      · rename_i behind _ hmark
        obtain ⟨⟨inner, last⟩, hread, heq⟩ := Option.map_eq_some_iff.1 h
        obtain ⟨rfl, rfl⟩ := Prod.mk.inj heq
        obtain ⟨tokens, front, hderives, hspelled, rfl⟩ := ih _ _ hread
        obtain ⟨mark, hnot, rfl⟩ :=
          exists_mark (.symbol rfl : Token.not.Spells _) hmark
        exact ⟨_, mark ++ front, .not hderives,
          hnot.append hspelled, by rw [List.append_assoc]⟩
      · rw [readCompared_skipSpace] at h
        obtain ⟨tokens, front, hderives, hspelled, heq⟩ :=
          isSound_readCompared hnested _ _ _ h
        exact ⟨tokens, front, .plain hderives, hspelled, heq⟩

/-- What a chain joins to the formulas of a level is a formula of the level. -/
theorem taken_readChain {level below : Level} {token : Token}
    {symbol : List Char} {operand : List Char → Option (Formula × List Char)}
    {join : Formula → Formula → Formula} (hoperand : IsSound below operand)
    (htoken : token.Spells symbol)
    (hjoin : ∀ {left right : Formula} {front back : List Token},
      Derives level left front → Derives below right back →
      Derives level (join left right) (front ++ token :: back))
    {fuel : Nat} {left formula : Formula} {tokens : List Token}
    {front chars rest : List Char} (hleft : Derives level left tokens)
    (hspelled : Spelled tokens front)
    (h : readChain operand symbol join fuel left chars = (formula, rest)) :
    Taken level formula (front ++ chars) rest := by
  induction fuel generalizing left tokens front chars with
  | zero =>
      obtain ⟨rfl, rfl⟩ := Prod.mk.inj h
      exact ⟨tokens, front, hleft, hspelled, rfl⟩
  | succ fuel ih =>
      rw [readChain] at h
      split at h
      · rename_i right behind hnext
        obtain ⟨others, hdrop, hread⟩ := Option.bind_eq_some_iff.1 hnext
        obtain ⟨mark, hmark, rfl⟩ :=
          exists_single htoken (dropText?_eq_some_iff.1 hdrop)
        obtain ⟨more, back, hright, hback, rfl⟩ := hoperand _ _ _ hread
        have htaken :=
          ih (hjoin hleft hright) (hspelled.append (hmark.append hback)) h
        simpa only [List.append_assoc] using htaken
      · obtain ⟨rfl, rfl⟩ := Prod.mk.inj h
        exact ⟨tokens, front, hleft, hspelled, rfl⟩

private theorem isSound_readConjunction
    (hnested : IsSound .disjunction nested) :
    IsSound .conjunction (readConjunction nested) := by
  intro chars formula rest h
  have hoperand := isSound_readNegated hnested
  obtain ⟨⟨left, behind⟩, hleft, hchain⟩ := Option.bind_eq_some_iff.1 h
  obtain ⟨tokens, front, hderives, hspelled, rfl⟩ := hoperand _ _ _ _ hleft
  exact taken_readChain (fun chars => hoperand chars.length chars)
    (.symbol rfl : Token.and.Spells _) .and (.single hderives) hspelled
    (Option.some.inj hchain)

private theorem isSound_readDisjunction
    (hnested : IsSound .disjunction nested) :
    IsSound .disjunction (readDisjunction nested) := by
  intro chars formula rest h
  have hoperand := isSound_readConjunction hnested
  obtain ⟨⟨left, behind⟩, hleft, hchain⟩ := Option.bind_eq_some_iff.1 h
  obtain ⟨tokens, front, hderives, hspelled, rfl⟩ := hoperand _ _ _ hleft
  exact taken_readChain hoperand (.symbol rfl : Token.or.Spells _) .or
    (.one hderives) hspelled (Option.some.inj hchain)

end

private theorem isSound_readNested (depth : Nat) :
    IsSound .disjunction (readNested depth) := by
  induction depth with
  | zero =>
      intro chars formula rest h
      cases h
  | succ depth ih => exact isSound_readDisjunction ih

theorem writes_of_ofText? {source : String} {formula : Formula}
    (h : ofText? source = some formula) : Writes formula source.toList := by
  obtain ⟨⟨found, rest⟩, hread, hwhole⟩ := Option.bind_eq_some_iff.1 h
  dsimp only at hwhole
  split_ifs at hwhole with hrest
  obtain rfl := Option.some.inj hwhole
  obtain ⟨tokens, front, hderives, hspelled, heq⟩ :=
    isSound_readNested _ _ _ _ hread
  have hspaces : IsSpaces rest :=
    isSpaces_of_skipSpace (List.isEmpty_iff.1 hrest)
  exact ⟨tokens, front, rest, hderives, hspelled, hspaces, heq⟩

end JobChain.Formula
