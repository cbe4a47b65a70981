import JobChain.Path

/-!
# Glob patterns

A pattern is a path whose names may hold wildcards: a question mark for one
character, a star for any number of them, brackets for one of a class, and two
stars alone for any number of directories.
-/

namespace JobChain.Glob

/-! ## Names -/

inductive Member where
  | single (c : Char)
  | range (first last : Char)
  deriving DecidableEq, Repr

def Member.holds (c : Char) : Member → Bool
  | .single d => c = d
  | .range first last => first ≤ c && c ≤ last

inductive Token where
  | char (c : Char)
  | any
  | within (members : List Member)
  | except (members : List Member)
  | star
  | deep
  deriving DecidableEq, Repr

def Token.accepts (c : Char) : Token → Bool
  | .char d => c = d
  | .any => true
  | .within members => members.any (Member.holds c)
  | .except members => !members.any (Member.holds c)
  | .star | .deep => true

def suffixes {α : Type} : List α → List (List α)
  | [] => [[]]
  | x :: rest => (x :: rest) :: suffixes rest

def isMany (token : Token) : Bool := token = .star || token = .deep

def accepts : List Token → List Char → Bool
  | [], chars => chars.isEmpty
  | token :: tokens, chars =>
      if isMany token then (suffixes chars).any (accepts tokens)
      else
        match chars with
        | [] => false
        | c :: rest => token.accepts c && accepts tokens rest

def anyBehind : List Bool → List Bool
  | [] => []
  | answer :: rest =>
      let later := anyBehind rest
      (answer || later.headD false) :: later

/-- Whether tokens accept a name, and then whether they accept each suffix of
it, down to the empty one. Every answer is made from those for one token less,
so no two stars multiply the work. -/
def row : List Token → List Char → List Bool
  | [], chars => (suffixes chars).map List.isEmpty
  | token :: tokens, chars =>
      let behind := row tokens chars
      if isMany token then anyBehind behind
      else List.zipWith (fun c answer => token.accepts c &&
        answer) chars behind.tail ++ [false]

private theorem anyBehind_map_suffixes {α : Type} (test : List α → Bool)
    (list : List α) :
    anyBehind ((suffixes list).map test) = (suffixes list).map fun suffix =>
      (suffixes suffix).any test := by
  induction list with
  | nil => simp [suffixes, anyBehind]
  | cons x rest ih =>
      have hhead :
          ((suffixes rest).map fun suffix =>
            (suffixes suffix).any test).headD false =
          (suffixes rest).any test := by cases rest <;> simp [suffixes]
      simp only [suffixes, List.map_cons, anyBehind, ih, hhead, List.any_cons]

private theorem row_eq (tokens : List Token) (chars : List Char) :
    row tokens chars = (suffixes chars).map (accepts tokens) := by
  induction tokens generalizing chars with
  | nil => simp only [row, funext fun chars => show accepts [] chars =
      chars.isEmpty from rfl]
  | cons token tokens ih =>
      cases hmany : isMany token with
      | true =>
          have hfun : accepts (token :: tokens) = fun suffix =>
              (suffixes suffix).any (accepts tokens) := by
            funext suffix
            simp [accepts, hmany]
          simp only [row, hmany, if_true, ih, anyBehind_map_suffixes, hfun]
      | false =>
          simp only [row, hmany, ih]
          induction chars with
          | nil => simp [suffixes, accepts, hmany]
          | cons c rest ihc =>
              cases rest <;> simp_all [suffixes, accepts]

def acceptsByRows (tokens : List Token) (chars : List Char) : Bool :=
  (row tokens chars).headD false

theorem acceptsByRows_eq (tokens : List Token) (chars : List Char) :
    acceptsByRows tokens chars = accepts tokens chars := by
  cases chars <;> simp [acceptsByRows, row_eq, suffixes]

/-! ## Reading -/

def members : List Char → List Member
  | first :: '-' :: last :: rest => .range first last :: members rest
  | c :: rest => .single c :: members rest
  | [] => []

def untilBracket? : List Char → Option (List Char × List Char)
  | [] => none
  | c :: rest =>
      if c = ']' then some ([], rest)
      else (untilBracket? rest).map fun (before, behind) =>
        (c :: before, behind)

/-- The class behind an opening bracket, which has a member at least, and what
follows it. -/
def readClass? : List Char → Option (Token × List Char)
  | '!' :: c :: rest =>
      (untilBracket? rest).map fun (before, behind) =>
        (.except (members (c :: before)), behind)
  | '!' :: [] => none
  | c :: rest =>
      (untilBracket? rest).map fun (before, behind) =>
        (.within (members (c :: before)), behind)
  | [] => none

/-- The tokens of a text; `front` tells that it begins a name. Two stars have to
be a whole name. -/
def readTokens? : Nat → Bool → List Char → Option (List Token)
  | 0, _, _ => none
  | _, _, [] => some []
  | _ + 1, _, '*' :: '*' :: '*' :: _ => none
  | fuel + 1, front, '*' :: '*' :: rest =>
      if front then
        match rest with
        | [] => some [.deep]
        | '/' :: rest => (readTokens? fuel true rest).map (.deep :: ·)
        | _ => none
      else none
  | fuel + 1, _, '*' :: rest => (readTokens? fuel false rest).map (.star :: ·)
  | fuel + 1, _, '?' :: rest => (readTokens? fuel false rest).map (.any :: ·)
  | fuel + 1, _, '[' :: rest => do
      let (token, rest) ← readClass? rest
      let tokens ← readTokens? fuel false rest
      some (token :: tokens)
  | fuel + 1, _, c :: rest =>
      (readTokens? fuel (c = '/') rest).map (.char c :: ·)

def tokens? (chars : List Char) : Option (List Token) :=
  readTokens? (chars.length + 1) true chars

/-! ## Patterns -/

/-- One name of a pattern: a plain one, one with wildcards, or any number of
directories. -/
inductive Part where
  | literal (name : String)
  | wild (tokens : List Token)
  | deep
  deriving DecidableEq, Repr

namespace Part

def accepts (name : String) : Part → Bool
  | .literal text => name = text
  | .wild tokens => acceptsByRows tokens name.toList
  | .deep => true

def isChar : Token → Bool
  | .char _ => true
  | _ => false

def ofChars? (chars : List Char) : Option Part :=
  (tokens? chars).map fun tokens =>
    if tokens = [.deep] then .deep
    else if tokens.all isChar then .literal (String.ofList chars)
    else .wild tokens

/-- Whether a part with wildcards begins with a dot; only such a one finds the
dots that name directories. -/
def beginsWithDot : Part → Bool
  | .wild (.char '.' :: _) => true
  | _ => false

end Part

structure Pattern where
  absolute : Bool
  parts : List Part
  directories : Bool
  deriving DecidableEq, Repr

namespace Pattern

def pieces (chars : List Char) : List (List Char) :=
  let pieces := Text.splitAt (fun c => c = '/') chars
  if pieces.getLast? = some [] then pieces.dropLast else pieces

def ofText? (text : String) : Option Pattern := do
  let chars := text.toList
  let _ ← tokens? chars
  let absolute : Bool := chars.head? = some '/'
  let names := pieces (if absolute then chars.tail else chars)
  let parts ← (if names.isEmpty then [[]] else names).mapM Part.ofChars?
  some { absolute, parts, directories := chars.getLast? = some '/' }

end Pattern

/-! ## Plain texts -/

def isSpecial (c : Char) : Bool := c = '?' || c = '*' || c = '[' || c = ']'

def escapeChars : List Char → List Char
  | [] => []
  | c :: rest => if isSpecial c then '[' :: c :: ']' :: escapeChars rest
      else c :: escapeChars rest

def escape (text : String) : String := String.ofList (escapeChars text.toList)

def patternIn (directory : Path) (suffix : String) : String :=
  escape directory.text ++ "/" ++ suffix

end JobChain.Glob
