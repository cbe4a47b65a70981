import JobChain.Json.Decode
import JobChain.Text.Blank
import JobChain.Text.Decimal

/-!
# Timestamps

Moments in coordinated universal time to the nanosecond, and their text: a date,
a time of day and an offset.
-/

namespace JobChain

/-- Seconds since the beginning of 1970. In a leap second the nanoseconds count
on, past a thousand million, from the second before it. -/
structure Timestamp where
  seconds : Int
  nanoseconds : Nat := 0
  deriving DecidableEq, Repr

/-! ## Calendar -/

structure Date where
  year : Int
  month : Nat
  day : Nat
  deriving DecidableEq, Repr

namespace Date

def isLeap (year : Int) : Bool :=
  year % 4 = 0 && (year % 100 != 0 || year % 400 = 0)

def daysInMonth (year : Int) (month : Nat) : Nat :=
  if month = 2 then (if isLeap year then 29 else 28)
  else if month = 4 ∨ month = 6 ∨ month = 9 ∨ month = 11 then 30
  else 31

def isValid (date : Date) : Bool :=
  1 ≤ date.month && date.month ≤ 12 && 1 ≤ date.day &&
    date.day ≤ daysInMonth date.year date.month

def firstYear : Int := -262143

def lastYear : Int := 262142

/-- The number of days from the beginning of 1970; years are taken from March
on, so that the leap day is the last. -/
def toDays (date : Date) : Int :=
  let year := if date.month ≤ 2 then date.year - 1 else date.year
  let month : Int := ((date.month + 9) % 12 : Nat)
  let dayOfYear := (153 * month + 2) / 5 + date.day - 1
  365 * year + year / 4 - year / 100 + year / 400 + dayOfYear - 719468

def ofDays (days : Int) : Date :=
  let shifted := days + 719468
  let era := shifted / 146097
  let dayOfEra := shifted % 146097
  let yearOfEra := (dayOfEra - dayOfEra / 1460 + dayOfEra / 36524 - dayOfEra /
    146096) / 365
  let dayOfYear := dayOfEra - (365 * yearOfEra + yearOfEra / 4 - yearOfEra / 100)
  let month := (5 * dayOfYear + 2) / 153
  let day := (dayOfYear - (153 * month + 2) / 5 + 1).toNat
  let month := (if month < 10 then month + 3 else month - 9).toNat
  { year := era * 400 + yearOfEra + (if month ≤ 2 then 1 else 0), month, day }

end Date

namespace Timestamp

/-! ## Writing -/

def fractionText (nanoseconds : Nat) : String :=
  if nanoseconds = 0 then ""
  else if nanoseconds % 1000000 = 0 then
  "." ++ Text.paddedText 3 (nanoseconds / 1000000)
  else if nanoseconds % 1000 = 0 then
  "." ++ Text.paddedText 6 (nanoseconds / 1000)
  else "." ++ Text.paddedText 9 nanoseconds

def yearText (year : Int) : String :=
  if 0 ≤ year ∧ year ≤ 9999 then Text.paddedText 4 year.toNat
  else (if year < 0 then "-" else "+") ++ Text.paddedText 4 year.natAbs

/-- Whole seconds among the nanoseconds, which only a leap second has, count on
behind the last second of the minute. -/
def localText (time : Timestamp) : String :=
  let date := Date.ofDays (time.seconds / 86400)
  let second := (time.seconds % 86400).toNat
  yearText date.year ++ "-" ++ Text.paddedText 2 date.month ++ "-" ++
  Text.paddedText 2 date.day ++ "T" ++ Text.paddedText 2 (second / 3600) ++
  ":" ++ Text.paddedText 2 (second / 60 % 60) ++ ":" ++
  Text.paddedText 2 (second % 60 + time.nanoseconds / 1000000000) ++
  fractionText (time.nanoseconds % 1000000000)

def text (time : Timestamp) : String := time.localText ++ "Z"

def offsetText (time : Timestamp) : String := time.localText ++ "+00:00"

/-! ## Reading

Blanks may stand before every number but one behind a sign, before the marks `-`
and `:`, before the offset and at the end.
-/

def skipBlanks (chars : List Char) : List Char := chars.dropWhile Text.isBlank

def readDigits? (width : Nat) (chars : List Char) : Option (Nat × List Char) :=
  let digits := (chars.take width).takeWhile Char.isDigit
  if digits.isEmpty then none
  else some (Text.digitsValue digits, chars.drop digits.length)

def readNumber? (chars : List Char) : Option (Nat × List Char) :=
  readDigits? 2 (skipBlanks chars)

def readMark? (mark : Char) (chars : List Char) : Option (List Char) :=
  match skipBlanks chars with
  | c :: rest => if c = mark then some rest else none
  | [] => none

def readYear? (chars : List Char) : Option (Int × List Char) :=
  match skipBlanks chars with
  | '-' :: rest => (readDigits? rest.length rest).map fun (year, rest) =>
      (-(year : Int), rest)
  | '+' :: rest => (readDigits? rest.length rest).map fun (year, rest) =>
      ((year : Int), rest)
  | rest => (readDigits? 4 rest).map fun (year, rest) => ((year : Int), rest)

def readDate? (chars : List Char) : Option (Date × List Char) := do
  let (year, rest) ← readYear? chars
  let (month, rest) ← readNumber? (← readMark? '-' rest)
  let (day, rest) ← readNumber? (← readMark? '-' rest)
  let date : Date := { year, month, day }
  if date.isValid then some (date, rest) else none

/-- Nanoseconds from the digits behind a point; those past the ninth do not
count. -/
def readFraction? : List Char → Option (Nat × List Char)
  | '.' :: rest =>
      let digits := rest.takeWhile Char.isDigit
      let nine := (digits ++ List.replicate 9 '0').take 9
      if digits.isEmpty then none
      else some (Text.digitsValue nine, rest.dropWhile Char.isDigit)
  | chars => some (0, chars)

def readTime? (chars : List Char) : Option (Nat × Nat × List Char) := do
  let (hour, rest) ← readNumber? chars
  let (minute, rest) ← readNumber? (← readMark? ':' rest)
  let (second, rest) ← readNumber? (← readMark? ':' rest)
  let (nanoseconds, rest) ← readFraction? rest
  if hour < 24 ∧ minute < 60 ∧ second ≤ 60 then
    if second = 60 then
      some (hour * 3600 + minute * 60 + 59, nanoseconds + 1000000000, rest)
    else some (hour * 3600 + minute * 60 + second, nanoseconds, rest)
  else none

/-- Hours and minutes in two digits each, with colons and blanks between them or
none. -/
def readShift? : List Char → Option (Nat × List Char)
  | a :: b :: rest => do
      let hours ← Text.readDigits? [a, b]
      match rest.dropWhile fun c => c = ':' || Text.isBlank c with
      | c :: d :: rest =>
          let minutes ← Text.readDigits? [c, d]
          if hours < 24 ∧ minutes < 60 then
            some (hours * 3600 + minutes * 60, rest)
          else none
      | _ => none
  | _ => none

def isUtc (name : List Char) : Bool := name.map Char.toUpper = ['U', 'T', 'C']

def readOffset? (chars : List Char) : Option (Int × List Char) :=
  let chars := skipBlanks chars
  if isUtc (chars.take 3) then some (0, chars.drop 3)
  else
    match chars with
    | [] => none
    | sign :: rest =>
        if sign = 'Z' ∨ sign = 'z' then some (0, rest)
        else if sign = '+' then
          (readShift? rest).map fun (seconds, rest) => ((seconds : Int), rest)
        else if sign = '-' ∨ sign = '\u2212' then
          (readShift? rest).map fun (seconds, rest) => (-(seconds : Int), rest)
        else none

def isCovered (time : Timestamp) : Bool :=
  let year := (Date.ofDays (time.seconds / 86400)).year
  Date.firstYear ≤ year && year ≤ Date.lastYear

def ofText? (text : String) : Option Timestamp := do
  let (date, rest) ← readDate? text.toList
  let (mark, rest) ← rest.head?.map fun mark => (mark, rest.tail)
  if mark = 'T' ∨ mark = 't' ∨ mark = ' ' then
    let (second, nanoseconds, rest) ← readTime? rest
    let (offset, rest) ← readOffset? rest
    let here : Timestamp :=
      { seconds := date.toDays * 86400 + second, nanoseconds }
    let time := { here with seconds := here.seconds - offset }
    if here.isCovered && time.isCovered && rest.all Text.isBlank then some time
    else none
  else none

def toJson (time : Timestamp) : Json := .string time.text

def decoder : Decoder Timestamp := Decoder.text.filterMap ofText?

end Timestamp

end JobChain
