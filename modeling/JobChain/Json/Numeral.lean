import JobChain.Json

/-!
# Numbers as they are written

An integer of 64 bits keeps its value. Every other number is a floating-point
one: its digits are taken into a significand of 64 bits as long as they fit, and
the significand is multiplied or divided by a power of ten, each step rounding.
-/

namespace JobChain

structure Numeral where
  negative : Bool
  whole : List Char
  fraction : Option (List Char)
  exponent : Option Int
  deriving DecidableEq, Repr

namespace Numeral

/-! ## Values -/

/-- Takes digits into a significand until one does not fit, and counts those
left. -/
def takeDigits (significand : Nat) : List Char → Nat × Nat
  | [] => (significand, 0)
  | c :: rest =>
      let next := Nat.ofDigitChars 10 [c] significand
      if next < 0x10000000000000000 then takeDigits next rest
      else (significand, rest.length + 1)

def largestPower : Nat := 308

def powerOfTen (n : Nat) : Binary64 :=
  Binary64.ofQuotient false (Nat.pow 10 n) 1

def shrink (x : Binary64) (power : Nat) : Binary64 :=
  if power ≤ largestPower then x.div (powerOfTen power)
  else if x.isZero then x
  else shrink (x.div (powerOfTen largestPower)) (power - largestPower)
  termination_by power
  decreasing_by simp_all only [largestPower]; omega

/-- A significand times a power of ten; none past the largest finite number. -/
def scaled? (x : Binary64) (power : Int) : Option Binary64 :=
  if power < 0 then some (shrink x power.natAbs)
  else if power.natAbs ≤ largestPower then
    let y := x.mul (powerOfTen power.natAbs)
    if y.isFinite then some y else none
  else if x.isZero then some x
  else none

def float? (numeral : Numeral) : Option Number :=
  let (significand, wholeLeft) := takeDigits 0 numeral.whole
  let fraction := numeral.fraction.getD []
  let (significand, fractionLeft) := takeDigits significand fraction
  let power := (wholeLeft : Int) - (fraction.length - fractionLeft) + numeral.exponent.getD 0
  (scaled? (Binary64.ofInt significand) power).bind fun x =>
    let y : Binary64 := ⟨numeral.negative, x.magnitude, x.magnitude_lt⟩
    if h : y.isFinite = true then some (.float y h) else none

def number? (numeral : Numeral) : Option Number :=
  if numeral.fraction.isNone && numeral.exponent.isNone then
    let n := Text.digitsValue numeral.whole
    if h : numeral.negative = false ∧ n < 0x10000000000000000 then
      some (.int n ⟨by omega, by omega⟩)
    else if h : numeral.negative = true ∧ 0 < n ∧ n ≤ 0x8000000000000000 then
      some (.int (-n) ⟨by omega, by omega⟩)
    else numeral.float?
  else numeral.float?

/-! ## Reading -/

def readDigits? (chars : List Char) : Option (List Char × List Char) :=
  match chars.takeWhile Char.isDigit with
  | [] => none
  | digits => some (digits, chars.dropWhile Char.isDigit)

def readFraction? : List Char → Option (Option (List Char) × List Char)
  | '.' :: rest => (readDigits? rest).map fun (digits, rest) =>
      (some digits, rest)
  | chars => some (none, chars)

def readExponentDigits? (negative : Bool)
    (chars : List Char) : Option (Option Int × List Char) :=
  (readDigits? chars).map fun (digits, rest) =>
    (some (Binary64.signed negative (Text.digitsValue digits)), rest)

def readExponent? : List Char → Option (Option Int × List Char)
  | [] => some (none, [])
  | c :: rest =>
      if c = 'e' ∨ c = 'E' then
        match rest with
        | '+' :: rest => readExponentDigits? false rest
        | '-' :: rest => readExponentDigits? true rest
        | rest => readExponentDigits? false rest
      else some (none, c :: rest)

def read? (negative : Bool) (chars : List Char) :
    Option (Numeral × List Char) := do
  let (whole, rest) ← readDigits? chars
  if whole.length > 1 ∧ whole.head? = some '0' then none
  else
    let (fraction, rest) ← readFraction? rest
    let (exponent, rest) ← readExponent? rest
    some (⟨negative, whole, fraction, exponent⟩, rest)

end Numeral

end JobChain
