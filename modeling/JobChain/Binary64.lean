import JobChain.Text.Decimal

/-!
# Binary floating-point numbers of 64 bits

A number is a sign and a magnitude, the 63 bits of exponent and fraction read as
one natural number, so that magnitudes are ordered as the numbers are.
Arithmetic is exact on mantissas and powers of two and rounds once, to the
nearest number and on a tie to the even one.
-/

namespace JobChain

structure Binary64 where
  negative : Bool
  magnitude : Nat
  magnitude_lt : magnitude < 0x8000000000000000
  deriving DecidableEq, Repr

namespace Binary64

/-! ## Parts of a number -/

def binade : Nat := 0x10000000000000

def infinite : Nat := 2047 * binade

def isFinite (x : Binary64) : Bool := x.magnitude < infinite

def isInfinite (x : Binary64) : Bool := x.magnitude = infinite

def isNaN (x : Binary64) : Bool := infinite < x.magnitude

def isZero (x : Binary64) : Bool := x.magnitude = 0

def mantissa (x : Binary64) : Nat :=
  if x.magnitude < binade then x.magnitude else binade + x.magnitude % binade

def scale (x : Binary64) : Int := max 1 (x.magnitude / binade : Nat) - 1075

/-! ## Rounding -/

def floorLog2 (num den : Nat) : Int :=
  let estimate : Int := (num.log2 : Int) - den.log2
  let below : Bool :=
    if 0 ≤ estimate then num < den * Nat.pow 2 estimate.toNat
    else num * Nat.pow 2 (-estimate).toNat < den
  if below then estimate - 1 else estimate

def divNearest (num den : Nat) : Nat :=
  let quotient := num / den
  let twice := 2 * (num % den)
  if den < twice ∨ (twice = den ∧ quotient % 2 = 1) then quotient + 1
  else quotient

/-- The magnitude nearest to a quotient, infinity when it is past the largest
finite one. -/
def nearestMagnitude (num den : Nat) : Nat :=
  if num = 0 then 0
  else
    let scale := max (floorLog2 num den - 52) (-1074)
    let mantissa :=
      if 0 ≤ scale then divNearest num (den * Nat.pow 2 scale.toNat)
      else divNearest (num * Nat.pow 2 (-scale).toNat) den
    min ((scale + 1074).toNat * binade + mantissa) infinite

def ofMagnitude (negative : Bool) (magnitude : Nat) : Binary64 :=
  if h : magnitude < 0x8000000000000000 then ⟨negative, magnitude, h⟩
  else ⟨negative, infinite, by decide⟩

def zero (negative : Bool) : Binary64 := ⟨negative, 0, by decide⟩

def infinity (negative : Bool) : Binary64 := ⟨negative, infinite, by decide⟩

def nan (negative : Bool) : Binary64 :=
  ⟨negative, infinite + binade / 2, by decide⟩

def ofQuotient (negative : Bool) (num den : Nat) : Binary64 :=
  ofMagnitude negative (nearestMagnitude num den)

def ofScaled (negative : Bool) (mantissa : Nat) (scale : Int) : Binary64 :=
  if 0 ≤ scale then ofQuotient negative (mantissa * Nat.pow 2 scale.toNat) 1
  else ofQuotient negative mantissa (Nat.pow 2 (-scale).toNat)

def ofInt (n : Int) : Binary64 := ofQuotient (n < 0) n.natAbs 1

/-- The number nearest to a whole number times a power of ten. Exponents far
outside the range are decided by the number of digits alone. -/
def ofDecimal (negative : Bool) (digits : Nat) (exponent : Int) : Binary64 :=
  let position := (Text.digitCount digits : Int) + exponent
  if digits = 0 ∨ position < -400 then zero negative
  else if 400 < position then infinity negative
  else if 0 ≤ exponent then
  ofQuotient negative (digits * Nat.pow 10 exponent.toNat) 1
  else ofQuotient negative digits (Nat.pow 10 (-exponent).toNat)

/-! ## Arithmetic -/

def signed (negative : Bool) (n : Nat) : Int :=
  if negative then -(n : Int) else n

def add (x y : Binary64) : Binary64 :=
  if x.isNaN then x
  else if y.isNaN then y
  else if x.isInfinite then
    if y.isInfinite && x.negative != y.negative then nan false else x
  else if y.isInfinite then y
  else
    let scale := min x.scale y.scale
    let sum :=
      signed x.negative (x.mantissa * Nat.pow 2 (x.scale - scale).toNat)
        + signed y.negative (y.mantissa * Nat.pow 2 (y.scale - scale).toNat)
    if sum = 0 then zero (x.negative && y.negative)
    else ofScaled (sum < 0) sum.natAbs scale

def mul (x y : Binary64) : Binary64 :=
  ofScaled (x.negative != y.negative) (x.mantissa * y.mantissa) (x.scale +
    y.scale)

def div (x y : Binary64) : Binary64 :=
  let negative := x.negative != y.negative
  let scale := x.scale - y.scale
  if 0 ≤ scale then
  ofQuotient negative (x.mantissa * Nat.pow 2 scale.toNat) y.mantissa
  else ofQuotient negative x.mantissa (y.mantissa * Nat.pow 2 (-scale).toNat)

/-! ## Comparison -/

/-- Equality of numbers: the zeros are equal, and what is no number equals
nothing. -/
def eqNumber (x y : Binary64) : Bool :=
  !x.isNaN && (x = y || (x.isZero && y.isZero))

/-- The place of a number in the total order, in which the negative zero is
below the positive one and what is no number lies beyond the infinity of its
sign. -/
def rank (x : Binary64) : Int :=
  if x.negative then -(x.magnitude : Int) - 1 else x.magnitude

def totalOrder (x y : Binary64) : Ordering := compare x.rank y.rank

def toInt? (x : Binary64) : Option Int :=
  if x.isFinite then
    if 0 ≤ x.scale then
      some (signed x.negative (x.mantissa * Nat.pow 2 x.scale.toNat))
    else
      let unit := Nat.pow 2 (-x.scale).toNat
      if x.mantissa % unit = 0 then some (signed x.negative (x.mantissa / unit))
      else none
  else none

end Binary64

end JobChain
