import JobChain.Binary64.Reader
import JobChain.Formula
import JobChain.Text.Alphabetic
import JobChain.Text.Numeric

/-!
# Reading formulas

`||` binds weakest, then `&&`, both to the left, then any number of `!`, each
for the whole comparison behind it, then one operand or two with a comparison
between them. An operand is a number, a text in single or double quotes, `true`,
`false`, `null`, a path of identifiers, or a formula in parentheses. Spaces may
stand between tokens.
-/

namespace JobChain.Formula

/-! ## Tokens -/

def isSpace (c : Char) : Bool := c = ' ' || c = '\t' || c = '\r' || c = '\n'

def skipSpace (chars : List Char) : List Char := chars.dropWhile isSpace

def isIdentStart (c : Char) : Bool := Text.isAlphabetic c || c = '_'

def isIdentChar (c : Char) : Bool :=
  Text.isAlphabetic c || Text.isNumeric c || c = '_'

def dropText? : List Char → List Char → Option (List Char)
  | [], chars => some chars
  | _ :: _, [] => none
  | x :: xs, c :: chars => if x = c then dropText? xs chars else none

/-- The value of a number as it is written: whole numbers are integers when they
fit in 64 bits. -/
def literalOf (x : Binary64) : Json :=
  match x.toInt? with
  | some n => if n.natAbs < 0x8000000000000000 then .ofInt n else .ofBinary64 x
  | none => .ofBinary64 x

def readMagnitude (negative : Bool)
    (chars : List Char) : Option (Json × List Char) :=
  let whole := chars.takeWhile Char.isDigit
  let rest := chars.dropWhile Char.isDigit
  if whole.isEmpty then none
  else
    let (fraction, rest) := match rest with
      | '.' :: rest =>
          (rest.takeWhile Char.isDigit, rest.dropWhile Char.isDigit)
      | rest => ([], rest)
    let x := Binary64.ofDecimal negative (Text.digitsValue (whole ++ fraction))
      (-(fraction.length : Int))
    some (literalOf x, rest)

def readNumber : List Char → Option (Json × List Char)
  | '-' :: rest => readMagnitude true rest
  | chars => readMagnitude false chars

/-- The characters up to a closing quote; a backslash stands for the character
behind it. -/
def readQuoted (quote : Char) : List Char → Option (List Char × List Char)
  | [] => none
  | '\\' :: c :: rest => (readQuoted quote rest).map fun (text, rest) =>
      (c :: text, rest)
  | ['\\'] => none
  | c :: rest =>
      if c = quote then some ([], rest)
      else (readQuoted quote rest).map fun (text, rest) => (c :: text, rest)

def readText : List Char → Option (Json × List Char)
  | '"' :: rest =>
      (readQuoted '"' rest).map fun (text, rest) =>
        (.string (String.ofList text), rest)
  | '\'' :: rest =>
      (readQuoted '\'' rest).map fun (text, rest) =>
        (.string (String.ofList text), rest)
  | _ => none

def readWord (word : String) (value : Json)
    (chars : List Char) : Option (Json × List Char) :=
  match dropText? word.toList chars with
  | some [] => some (value, [])
  | some (c :: rest) => if isIdentChar c then none else some (value, c :: rest)
  | none => none

def readIdent : List Char → Option (List Char × List Char)
  | c :: rest =>
      if isIdentStart c then
        some (c :: rest.takeWhile isIdentChar, rest.dropWhile isIdentChar)
      else none
  | [] => none

def readPathRest : Nat → List Char → List Char × List Char
  | 0, chars => ([], chars)
  | fuel + 1, '.' :: rest =>
      match readIdent rest with
      | some (ident, others) =>
          let (more, others) := readPathRest fuel others
          ('.' :: ident ++ more, others)
      | none => ([], '.' :: rest)
  | _, chars => ([], chars)

def readPath (chars : List Char) : Option (Formula × List Char) := do
  let (ident, rest) ← readIdent chars
  let (more, rest) := readPathRest rest.length rest
  some (.path (String.ofList (ident ++ more)), rest)

def readLiteral (chars : List Char) : Option (Formula × List Char) :=
  (readNumber chars <|> readText chars <|> readWord "true" (.bool true) chars
    <|> readWord "false" (.bool false) chars <|> readWord "null" .null
    chars).map fun (value, rest) => (.literal value, rest)

def readComparison (chars : List Char) : Option (Comparison × List Char) :=
  Comparison.symbols.findSome? fun (symbol, comparison) =>
    (dropText? symbol.toList chars).map fun rest => (comparison, rest)

/-! ## The grammar, for a given reader of the formulas in parentheses -/

variable (nested : List Char → Option (Formula × List Char))

def readParenthesised (chars : List Char) : Option (Formula × List Char) :=
  match skipSpace chars with
  | '(' :: rest => do
      let (formula, rest) ← nested rest
      match skipSpace rest with
      | ')' :: rest => some (formula, rest)
      | _ => none
  | _ => none

def readOperand (chars : List Char) : Option (Formula × List Char) :=
  let chars := skipSpace chars
  readLiteral chars <|> readPath chars <|> readParenthesised nested chars

def readCompared (chars : List Char) : Option (Formula × List Char) := do
  let (left, rest) ← readOperand nested chars
  let compared : Option (Formula × List Char) := do
    let (comparison, others) ← readComparison (skipSpace rest)
    let (right, others) ← readOperand nested others
    some (.compare left comparison right, others)
  compared <|> some (left, rest)

/-- Exclamation marks in front of a comparison; one before an equals sign is
none. -/
def readNegated : Nat → List Char → Option (Formula × List Char)
  | 0, chars => readCompared nested chars
  | fuel + 1, chars =>
      match skipSpace chars with
      | '!' :: '=' :: _ => none
      | '!' :: rest => (readNegated fuel rest).map fun (formula, rest) =>
          (.not formula, rest)
      | chars => readCompared nested chars

def readChain (operand : List Char → Option (Formula × List Char))
    (symbol : List Char) (join : Formula → Formula → Formula) : Nat → Formula →
    List Char → Formula × List Char
  | 0, left, chars => (left, chars)
  | fuel + 1, left, chars =>
      let next : Option (Formula × List Char) := do
        operand (← dropText? symbol (skipSpace chars))
      match next with
      | some (right, rest) =>
          readChain operand symbol join fuel (join left right) rest
      | none => (left, chars)

def readConjunction (chars : List Char) : Option (Formula × List Char) := do
  let (left, rest) ← readNegated nested chars.length chars
  some (readChain (fun chars => readNegated nested chars.length chars) ['&',
    '&'] .and rest.length left rest)

def readDisjunction (chars : List Char) : Option (Formula × List Char) := do
  let (left, rest) ← readConjunction nested chars
  some (readChain (readConjunction nested) ['|', '|'] .or rest.length left rest)

/-! ## Whole formulas -/

/-- Reads a formula in which parentheses lie within one another less often than
a bound. -/
def readNested : Nat → List Char → Option (Formula × List Char)
  | 0, _ => none
  | depth + 1, chars => readDisjunction (readNested depth) chars

def ofText? (source : String) : Option Formula := do
  let (formula, rest) ← readNested (source.length + 1) source.toList
  if (skipSpace rest).isEmpty then some formula else none

end JobChain.Formula
