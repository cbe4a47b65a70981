/-!
# Decimal text of whole numbers

Writing and reading of natural numbers and integers in decimal digits.
-/

namespace JobChain.Text

def natChars (n : Nat) : List Char := Nat.toDigits 10 n

def intChars : Int → List Char
  | .ofNat n => natChars n
  | .negSucc n => '-' :: natChars (n + 1)

def natText (n : Nat) : String := String.ofList (natChars n)

def digitsValue (digits : List Char) : Nat := Nat.ofDigitChars 10 digits 0

def digitCount (n : Nat) : Nat := if n = 0 then 0 else (natChars n).length

/-- The text of a number with zeros before it up to a width. -/
def paddedText (width n : Nat) : String :=
  let chars := natChars n
  String.ofList (List.replicate (width - chars.length) '0' ++ chars)

def readDigits? (digits : List Char) : Option Nat :=
  if !digits.isEmpty && digits.all Char.isDigit then some (digitsValue digits)
  else none

/-- Reads a natural number below `2 ^ 64`; one plus sign may stand before the
digits. -/
def readNat? (text : String) : Option Nat :=
  let digits := match text.toList with
    | '+' :: rest => rest
    | chars => chars
  (readDigits? digits).filter fun n => n < 0x10000000000000000

theorem isDigit_of_mem_natChars {n : Nat} {c : Char}
    (h : c ∈ natChars n) : c.isDigit = true :=
  Nat.isDigit_of_mem_toDigits (by decide : 0 < 10) (by decide : 10 ≤ 10) h

@[simp] theorem readDigits?_natChars (n : Nat) :
    readDigits? (natChars n) = some n := by
  have hdigits : (natChars n).all Char.isDigit = true :=
    List.all_eq_true.2 fun _ h => isDigit_of_mem_natChars h
  have hvalue : digitsValue (natChars n) = n := Nat.ofDigitChars_ten_toDigits
  have hne : (natChars n).isEmpty = false := by
    simp [natChars, Nat.toDigits_ne_nil]
  simp only [readDigits?, hdigits, hne, hvalue]
  rfl

theorem natChars_injective {n n' : Nat}
    (h : natChars n = natChars n') : n = n' := by
  have hread := congrArg readDigits? h
  simpa using hread

end JobChain.Text
