import JobChain.Formula.Reader
import Mathlib.Data.List.DropRight
import Mathlib.Data.List.TakeWhile

/-!
# The grammar of formulas

A text writes a formula in two layers. It spells tokens, between which spaces
may stand, and the tokens derive the formula by rules of five levels. A spelling
need not be the longest one: the rules never put two operands side by side.
-/

namespace JobChain.Formula

/-! ## Tokens -/

inductive Token where
  | literal (value : Json)
  | path (names : String)
  | comparison (comparison : Comparison)
  | not
  | and
  | or
  | opening
  | closing
  deriving DecidableEq, Repr

def IsFraction (fraction : List Char) : Prop :=
  fraction = [] ∨ ∃ digits, fraction = '.' :: digits ∧ ∀ c ∈ digits,
    c.isDigit = true

/-- Digits, before which a minus sign may stand and behind which a fraction. -/
structure IsNumeral (chars sign whole fraction : List Char) : Prop where
  chars_eq : chars = sign ++ (whole ++ fraction)
  sign_eq : sign = [] ∨ sign = ['-']
  whole_ne : whole ≠ []
  isDigit_whole : ∀ c ∈ whole, c.isDigit = true
  isFraction : IsFraction fraction

inductive Quotes (quote : Char) : List Char → List Char → Prop where
  | nil : Quotes quote [] []
  | plain {c : Char} {text chars : List Char} (hquote : c ≠ quote)
      (hslash : c ≠ '\\') (h : Quotes quote text chars) :
      Quotes quote (c :: text) (c :: chars)
  | escaped {c : Char} {text chars : List Char} (h : Quotes quote text chars) :
      Quotes quote (c :: text) ('\\' :: c :: chars)

structure IsIdent (chars : List Char) : Prop where
  starts : ∃ c ∈ chars.head?, isIdentStart c = true
  goes_on : ∀ c ∈ chars.tail, isIdentChar c = true

def dotted (first : List Char) (others : List (List Char)) : List Char :=
  first ++ others.flatMap ('.' :: ·)

def Token.symbol? : Token → Option (List Char)
  | .literal (.bool true) => some ['t', 'r', 'u', 'e']
  | .literal (.bool false) => some ['f', 'a', 'l', 's', 'e']
  | .literal .null => some ['n', 'u', 'l', 'l']
  | .comparison .eq => some ['=', '=']
  | .comparison .ne => some ['!', '=']
  | .comparison .lt => some ['<']
  | .comparison .le => some ['<', '=']
  | .comparison .gt => some ['>']
  | .comparison .ge => some ['>', '=']
  | .not => some ['!']
  | .and => some ['&', '&']
  | .or => some ['|', '|']
  | .opening => some ['(']
  | .closing => some [')']
  | _ => none

def keywords : List (List Char) :=
  [['t', 'r', 'u', 'e'], ['f', 'a', 'l', 's', 'e'], ['n', 'u', 'l', 'l']]

inductive Token.Spells : Token → List Char → Prop where
  | symbol {token : Token} {chars : List Char} (h : token.symbol? =
      some chars) : Spells token chars
  | numeral {chars sign whole fraction : List Char} {x : Binary64}
      (h : IsNumeral chars sign whole fraction)
      (hvalue : Binary64.ofText? (String.ofList chars) = some x) :
      Spells (.literal (literalOf x)) chars
  | text {quote : Char} {text chars : List Char} (hquote : quote = '"' ∨
      quote = '\'') (h : Quotes quote text chars) :
      Spells (.literal (.string (String.ofList text))) (quote ::
        (chars ++ [quote]))
  | path {first : List Char}
      {others : List (List Char)} (hfirst : IsIdent first)
      (hword : first ∉ keywords) (hothers : ∀ ident ∈ others, IsIdent ident) :
      Spells (.path (String.ofList (dotted first others))) (dotted first others)

def IsSpaces (chars : List Char) : Prop := ∀ c ∈ chars, isSpace c = true

theorem isSpaces_nil : IsSpaces [] := List.forall_mem_nil _

theorem isSpaces_blank : IsSpaces [' '] := List.forall_mem_singleton.2 rfl

/-- Tokens one after another, each with spaces before it or none. -/
inductive Spelled : List Token → List Char → Prop where
  | nil : Spelled [] []
  | cons {token : Token} {tokens : List Token} {spaces chars rest : List Char}
      (hspaces : IsSpaces spaces) (htoken : token.Spells chars)
      (hrest : Spelled tokens rest) :
      Spelled (token :: tokens) (spaces ++ (chars ++ rest))

/-! ## Rules -/

inductive Level where
  | operand
  | comparison
  | negation
  | conjunction
  | disjunction
  deriving DecidableEq, Repr

inductive Derives : Level → Formula → List Token → Prop where
  | literal (value : Json) : Derives .operand (.literal value) [.literal value]
  | path (names : String) : Derives .operand (.path names) [.path names]
  | nested {formula : Formula}
      {tokens : List Token} (h : Derives .disjunction formula tokens) :
      Derives .operand formula (.opening :: (tokens ++ [.closing]))
  | alone {formula : Formula}
      {tokens : List Token} (h : Derives .operand formula tokens) :
      Derives .comparison formula tokens
  | compared {left right : Formula}
      {front back : List Token} (comparison : Comparison)
      (hleft : Derives .operand left front)
      (hright : Derives .operand right back) :
      Derives .comparison (.compare left comparison right) (front ++
        .comparison comparison :: back)
  | plain {formula : Formula}
      {tokens : List Token} (h : Derives .comparison formula tokens) :
      Derives .negation formula tokens
  | not {formula : Formula}
      {tokens : List Token} (h : Derives .negation formula tokens) :
      Derives .negation (.not formula) (.not :: tokens)
  | single {formula : Formula}
      {tokens : List Token} (h : Derives .negation formula tokens) :
      Derives .conjunction formula tokens
  | and {left right : Formula}
      {front back : List Token} (hleft : Derives .conjunction left front)
      (hright : Derives .negation right back) :
      Derives .conjunction (.and left right) (front ++ .and :: back)
  | one {formula : Formula}
      {tokens : List Token} (h : Derives .conjunction formula tokens) :
      Derives .disjunction formula tokens
  | or {left right : Formula}
      {front back : List Token} (hleft : Derives .disjunction left front)
      (hright : Derives .conjunction right back) :
      Derives .disjunction (.or left right) (front ++ .or :: back)

/-- A text writes a formula: it spells its tokens, with spaces at the end or
none. -/
def Writes (formula : Formula) (chars : List Char) : Prop :=
  ∃ tokens front spaces, Derives .disjunction formula tokens ∧
    Spelled tokens front ∧ IsSpaces spaces ∧ chars = front ++ spaces

def HasTokens : Formula → Prop
  | .literal value => ∃ chars, (Token.literal value).Spells chars
  | .path names => ∃ chars, (Token.path names).Spells chars
  | .not formula => formula.HasTokens
  | .and left right | .or left right | .compare left _ right =>
      left.HasTokens ∧ right.HasTokens

/-! ## Spaces -/

theorem skipSpace_append {spaces : List Char} (h : IsSpaces spaces)
    (rest : List Char) : skipSpace (spaces ++ rest) = skipSpace rest := by
  rw [skipSpace, List.dropWhile_append_of_pos h, skipSpace]

theorem skipSpace_of_not {c : Char} (h : isSpace c = false) (rest : List Char) :
    skipSpace (c :: rest) = c :: rest := by
  rw [skipSpace, List.dropWhile_cons_of_neg (by simp [h])]

theorem skipSpace_skipSpace (chars : List Char) :
    skipSpace (skipSpace chars) = skipSpace chars :=
  List.dropWhile_idempotent isSpace chars

theorem exists_spaces (chars : List Char) :
    ∃ spaces, IsSpaces spaces ∧ chars = spaces ++ skipSpace chars :=
  ⟨chars.takeWhile isSpace, fun _ => List.mem_takeWhile_imp,
    List.takeWhile_append_dropWhile.symm⟩

theorem isSpaces_of_skipSpace {chars : List Char}
    (h : skipSpace chars = []) : IsSpaces chars := by
  obtain ⟨spaces, hspaces, heq⟩ := exists_spaces chars
  rw [h, List.append_nil] at heq
  rwa [heq]

theorem skipSpace_of_isSpaces {spaces : List Char}
    (h : IsSpaces spaces) : skipSpace spaces = [] := by
  have happend := skipSpace_append h []
  rwa [List.append_nil] at happend

/-! ## Spelled tokens -/

theorem Spelled.append {tokens others : List Token} {chars rest : List Char}
    (h : Spelled tokens chars) (hrest : Spelled others rest) :
    Spelled (tokens ++ others) (chars ++ rest) := by
  induction h with
  | nil => exact hrest
  | cons hspaces htoken _ ih =>
      rw [List.append_assoc, List.append_assoc]
      exact .cons hspaces htoken ih

theorem Spelled.single {token : Token} {spaces chars : List Char}
    (hspaces : IsSpaces spaces) (htoken : token.Spells chars) :
    Spelled [token] (spaces ++ chars) := by
  rw [← List.append_nil chars]
  exact .cons hspaces htoken .nil

theorem Spelled.exists_cons {token : Token} {tokens : List Token}
    {chars : List Char} (h : Spelled (token :: tokens) chars) :
    ∃ spaces text rest, IsSpaces spaces ∧
      token.Spells text ∧ Spelled tokens rest ∧
      chars = spaces ++ (text ++ rest) := by
  cases h with
  | cons hspaces htoken hrest => exact ⟨_, _, _, hspaces, htoken, hrest, rfl⟩

theorem Spelled.exists_append {tokens others : List Token} {chars : List Char}
    (h : Spelled (tokens ++ others) chars) :
    ∃ front back, Spelled tokens front ∧ Spelled others back ∧
      chars = front ++ back := by
  induction tokens generalizing chars with
  | nil => exact ⟨[], chars, .nil, h, rfl⟩
  | cons token rest ih =>
      obtain ⟨spaces, text, behind, hspaces, htoken, hrest, rfl⟩ :=
        Spelled.exists_cons h
      obtain ⟨front, back, hfront, hback, rfl⟩ := ih hrest
      refine ⟨spaces ++ (text ++ front), back, .cons hspaces htoken hfront,
        hback, ?_⟩
      simp only [List.append_assoc]

theorem Spelled.exists_single {token : Token} {chars : List Char}
    (h : Spelled [token] chars) : ∃ spaces text, IsSpaces spaces ∧
    token.Spells text ∧ chars = spaces ++ text := by
  obtain ⟨spaces, text, rest, hspaces, htoken, hrest, rfl⟩ := h.exists_cons
  cases hrest
  exact ⟨spaces, text, hspaces, htoken, by rw [List.append_nil]⟩

theorem Token.Spells.eq_of_symbol? {token : Token} {chars symbol : List Char}
    (h : token.Spells chars) (hsymbol : token.symbol? = some symbol)
    (hliteral : ∀ value, token ≠ .literal value) : chars = symbol := by
  cases h with
  | symbol h => exact Option.some.inj (h.symm.trans hsymbol)
  | numeral => exact absurd rfl (hliteral _)
  | text => exact absurd rfl (hliteral _)
  | path => cases hsymbol

end JobChain.Formula
