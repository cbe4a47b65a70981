import JobChain.Binary64

/-!
# Reading decimal text

A decimal text stands for the floating-point number nearest to it. The texts of
infinity and of what is no number are read in any case of letters.
-/

namespace JobChain.Binary64

/-- Digits with a point among them or not, at least one digit; the power of ten
of the last. -/
def readMantissa? (chars : List Char) : Option (Nat × Int × List Char) :=
  let whole := chars.takeWhile Char.isDigit
  let rest := chars.dropWhile Char.isDigit
  let (fraction, rest) := match rest with
    | '.' :: rest => (rest.takeWhile Char.isDigit, rest.dropWhile Char.isDigit)
    | rest => ([], rest)
  if whole.isEmpty && fraction.isEmpty then none
  else some (Text.digitsValue (whole ++ fraction),
    -(fraction.length : Int), rest)

def readPower? : List Char → Option Int
  | [] => some 0
  | c :: rest =>
      if c = 'e' ∨ c = 'E' then
        match rest with
        | '-' :: digits => (Text.readDigits? digits).map fun n => -(n : Int)
        | '+' :: digits => (Text.readDigits? digits).map Int.ofNat
        | digits => (Text.readDigits? digits).map Int.ofNat
      else none

def readUnsigned? (negative : Bool) (chars : List Char) : Option Binary64 :=
  let word := String.ofList (chars.map Char.toLower)
  if word = "inf" ∨ word = "infinity" then some (infinity negative)
  else if word = "nan" then some (nan negative)
  else do
    let (digits, shift, rest) ← readMantissa? chars
    let power ← readPower? rest
    some (ofDecimal negative digits (shift + power))

def ofText? (text : String) : Option Binary64 :=
  match text.toList with
  | '-' :: rest => readUnsigned? true rest
  | '+' :: rest => readUnsigned? false rest
  | chars => readUnsigned? false chars

end JobChain.Binary64
