import JobChain.Binary64

/-!
# Shortest decimal text

The decimal of fewest digits that reads back as a number; of several of that
length the one nearest to it.
-/

namespace JobChain

/-- A positive decimal: its digits as a whole number, without zeros at the end,
and the power of ten that its first digit counts. -/
structure Decimal where
  digits : Nat
  exponent : Int
  deriving DecidableEq, Repr

namespace Decimal

def stripZeros : Nat → Nat → Nat
  | 0, digits => digits
  | fuel + 1, digits =>
      if digits % 10 = 0 then stripZeros fuel (digits / 10) else digits

def ofScaled (n : Nat) (power : Int) : Decimal :=
  { digits := stripZeros n n,
    exponent := (Text.digitCount n : Int) - 1 + power }

end Decimal

namespace Binary64

/-- The reals that round to a number lie between two quotients; the ends belong
to them when the mantissa is even. -/
structure RoundingInterval where
  low : Nat
  value : Nat
  high : Nat
  unit : Nat
  closed : Bool

def roundingInterval (x : Binary64) : RoundingInterval :=
  let m := x.mantissa
  let isPower := x.magnitude % binade = 0 ∧ binade < x.magnitude
  let low := if isPower then 4 * m - 1 else 4 * m - 2
  let scale := x.scale - 2
  let factor := Nat.pow 2 scale.toNat
  { low := low * factor, value := 4 * m * factor, high := (4 * m + 2) * factor,
    unit := Nat.pow 2 (-scale).toNat, closed := m % 2 = 0 }

def floorLog10 (num den : Nat) : Int :=
  if den ≤ num then (Text.digitCount (num / den) : Int) - 1
  else -(Text.digitCount ((den - 1) / num) : Int)

namespace RoundingInterval

def contains (interval : RoundingInterval) (n : Nat) (power : Int) : Bool :=
  let point := n * Nat.pow 10 power.toNat * interval.unit
  let shift := Nat.pow 10 (-power).toNat
  let low := interval.low * shift
  let high := interval.high * shift
  if interval.closed then low ≤ point && point ≤ high else low < point &&
  point < high

def nearest? (interval : RoundingInterval) (power : Int) : Option Nat :=
  let num := interval.value * Nat.pow 10 (-power).toNat
  let den := interval.unit * Nat.pow 10 power.toNat
  let below := num / den
  let candidates := [below, below + 1].filter fun n => interval.contains n power
  match candidates with
  | [] => none
  | [n] => some n
  | _ => some (divNearest num den)

def shortest (interval : RoundingInterval) : Nat → Int → Decimal
  | 0, power => Decimal.ofScaled (interval.value / interval.unit) power
  | fuel + 1, power =>
      match interval.nearest? power with
      | some n => Decimal.ofScaled n power
      | none => shortest interval fuel (power - 1)

end RoundingInterval

def shortestDecimal (x : Binary64) : Decimal :=
  let interval := x.roundingInterval
  interval.shortest 18 (floorLog10 interval.value interval.unit)

def decimalChars (decimal : Decimal) : List Char :=
  let digits := Text.natChars decimal.digits
  let count : Int := digits.length
  let e := decimal.exponent
  if 0 ≤ e ∧ e < 16 then
    if count ≤ e + 1 then digits ++ List.replicate (e + 1 - count).toNat '0' ++
      ['.', '0']
    else digits.take (e + 1).toNat ++ '.' :: digits.drop (e + 1).toNat
  else if -5 ≤ e ∧ e < 0 then
    '0' :: '.' :: List.replicate (-e - 1).toNat '0' ++ digits
  else
    let fraction := if count = 1 then [] else '.' :: digits.drop 1
    let sign := if e < 0 then '-' else '+'
    digits.take 1 ++ fraction ++ 'e' :: sign :: Text.natChars e.natAbs

def chars (x : Binary64) : List Char :=
  let body := if x.isZero then ['0', '.', '0']
    else decimalChars x.shortestDecimal
  if x.negative then '-' :: body else body

end Binary64

end JobChain
