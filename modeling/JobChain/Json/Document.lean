import JobChain.Json.Numeral

/-!
# JSON documents

The structure of a JSON text before it is known what value it is to be. A
document keeps the fields of an object as they stand, repeated ones too, and
where a text stops being JSON it ends in a broken leaf. So whoever takes a value
from a document meets the faults in the order in which they stand in the text.
-/

namespace JobChain

/-- The number of a document is none when it is past the range of numbers, and
its text is none when an escape stands for half of a surrogate pair. -/
inductive Document where
  | null
  | bool (value : Bool)
  | number (value? : Option Number)
  | string (text? : Option String)
  | array (items : List Document) (closed : Bool)
  | object (fields : List (Option String × Document)) (closed : Bool)
  | broken

namespace Document

/-! ## Reading a text -/

def isSpace (c : Char) : Bool := c = ' ' || c = '\t' || c = '\r' || c = '\n'

def skipSpace (chars : List Char) : List Char := chars.dropWhile isSpace

def hexValue? (c : Char) : Option Nat :=
  if c.isDigit then some (c.toNat - '0'.toNat)
  else if 'a' ≤ c ∧ c ≤ 'f' then some (c.toNat - 'a'.toNat + 10)
  else if 'A' ≤ c ∧ c ≤ 'F' then some (c.toNat - 'A'.toNat + 10)
  else none

def hexUnit? (a b c d : Char) : Option Nat := do
  let a ← hexValue? a
  let b ← hexValue? b
  let c ← hexValue? c
  let d ← hexValue? d
  some (((a * 16 + b) * 16 + c) * 16 + d)

def isHighSurrogate (code : Nat) : Bool := 0xD800 ≤ code && code < 0xDC00

def isLowSurrogate (code : Nat) : Bool := 0xDC00 ≤ code && code < 0xE000

def joinSurrogates (high low : Nat) : Char :=
  Char.ofNat (0x10000 + (high - 0xD800) * 0x400 + (low - 0xDC00))

def escape? : Char → Option Char
  | '"' => some '"'
  | '\\' => some '\\'
  | '/' => some '/'
  | 'b' => some (Char.ofNat 8)
  | 'f' => some (Char.ofNat 12)
  | 'n' => some '\n'
  | 'r' => some '\r'
  | 't' => some '\t'
  | _ => none

/-- The characters of a string, none when it is flawed, and what stands behind
it. -/
abbrev Quoted := Option (List Char) × List Char

def Quoted.push (c : Char) (quoted : Quoted) : Quoted :=
  (quoted.1.map (c :: ·), quoted.2)

def Quoted.flaw (quoted : Quoted) : Quoted := (none, quoted.2)

def readQuoted? : List Char → Option Quoted
  | [] => none
  | '"' :: rest => some (some [], rest)
  | '\\' :: 'u' :: a :: b :: c :: d :: rest =>
      match hexUnit? a b c d with
      | none => none
      | some code =>
          if isHighSurrogate code then
            match rest with
            | '\\' :: 'u' :: e :: f :: g :: h :: others =>
                match hexUnit? e f g h with
                | none => none
                | some low =>
                    if isLowSurrogate low then
                      (readQuoted? others).map
                        (Quoted.push (joinSurrogates code low))
                    else (readQuoted? others).map Quoted.flaw
            | rest => (readQuoted? rest).map Quoted.flaw
          else if isLowSurrogate code then (readQuoted? rest).map Quoted.flaw
          else (readQuoted? rest).map (Quoted.push (Char.ofNat code))
  | '\\' :: c :: rest =>
      match escape? c with
      | none => none
      | some c => (readQuoted? rest).map (Quoted.push c)
  | c :: rest =>
      if c.toNat < 32 then none else (readQuoted? rest).map (Quoted.push c)

def readNumber (negative : Bool)
    (chars : List Char) : Document × Option (List Char) :=
  match Numeral.read? negative chars with
  | some (numeral, rest) => (.number numeral.number?, some rest)
  | none => (.broken, none)

def readWord (word : List Char) (document : Document)
    (chars : List Char) : Document × Option (List Char) :=
  if word.isPrefixOf chars then (document, some (chars.drop word.length))
  else (.broken, none)

mutual

/-- Reads a value and what stands behind it, none when the value is broken. -/
def read : Nat → List Char → Document × Option (List Char)
  | 0, _ => (.broken, none)
  | fuel + 1, chars =>
      match skipSpace chars with
      | [] => (.broken, none)
      | '"' :: rest =>
          match readQuoted? rest with
          | some (text?, rest) => (.string (text?.map String.ofList), some rest)
          | none => (.broken, none)
      | '[' :: rest =>
          match skipSpace rest with
          | ']' :: rest => (.array [] true, some rest)
          | _ =>
              let (items, rest) := readItems fuel rest
              (.array items rest.isSome, rest)
      | '\x7b' :: rest =>
          match skipSpace rest with
          | '\x7d' :: rest => (.object [] true, some rest)
          | _ =>
              let (fields, rest) := readFields fuel rest
              (.object fields rest.isSome, rest)
      | '-' :: rest => readNumber true rest
      | 'n' :: rest => readWord ['u', 'l', 'l'] .null rest
      | 't' :: rest => readWord ['r', 'u', 'e'] (.bool true) rest
      | 'f' :: rest => readWord ['a', 'l', 's', 'e'] (.bool false) rest
      | chars => readNumber false chars

def readItems : Nat → List Char → List Document × Option (List Char)
  | 0, _ => ([], none)
  | fuel + 1, chars =>
      match read fuel chars with
      | (item, none) => ([item], none)
      | (item, some rest) =>
          match skipSpace rest with
          | ',' :: rest =>
              let (items, rest) := readItems fuel rest
              (item :: items, rest)
          | ']' :: rest => ([item], some rest)
          | _ => ([item], none)

def readFields :
    Nat → List Char → List (Option String × Document) × Option (List Char)
  | 0, _ => ([], none)
  | fuel + 1, chars =>
      match skipSpace chars with
      | '"' :: rest =>
          match readQuoted? rest with
          | none => ([], none)
          | some (key?, rest) =>
              let key := key?.map String.ofList
              match skipSpace rest with
              | ':' :: rest =>
                  match read fuel rest with
                  | (value, none) => ([(key, value)], none)
                  | (value, some rest) =>
                      match skipSpace rest with
                      | ',' :: rest =>
                          let (fields, rest) := readFields fuel rest
                          ((key, value) :: fields, rest)
                      | '\x7d' :: rest => ([(key, value)], some rest)
                      | _ => ([(key, value)], none)
              | _ => ([(key, .broken)], none)
      | _ => ([], none)

end

def ofChars (chars : List Char) : Document × Option (List Char) :=
  read (2 * chars.length + 2) chars

/-! ## Values -/

/-- Why a document is no value of the kind wanted: the text is no JSON, or the
JSON has another shape. -/
inductive Fault where
  | malformed
  | misshapen
  deriving DecidableEq, Repr

def maxDepth : Nat := 127

mutual

def isWhole : Document → Bool
  | .array items closed => closed && areWhole items
  | .object fields closed => closed && areWholeFields fields
  | .broken => false
  | _ => true

def areWhole : List Document → Bool
  | [] => true
  | item :: rest => item.isWhole && areWhole rest

def areWholeFields : List (Option String × Document) → Bool
  | [] => true
  | (_, value) :: rest => value.isWhole && areWholeFields rest

end

mutual

/-- The value of a document in which `room` more levels may be opened. Of a
repeated key the last value stays. -/
def value (room : Nat) : Document → Except Fault Json
  | .null => .ok .null
  | .bool b => .ok (.bool b)
  | .number (some n) => .ok (.number n)
  | .number none => .error .malformed
  | .string (some text) => .ok (.string text)
  | .string none => .error .malformed
  | .array items closed =>
      match room with
      | 0 => .error .malformed
      | room + 1 => do
          let values ← values room items
          if closed then .ok (.array values) else .error .malformed
  | .object fields closed =>
      match room with
      | 0 => .error .malformed
      | room + 1 => do
          let sorted ← fieldValues room [] fields
          if closed then .ok (.object sorted) else .error .malformed
  | .broken => .error .malformed

def values (room : Nat) : List Document → Except Fault (List Json)
  | [] => .ok []
  | item :: rest => do
      let first ← item.value room
      let others ← values room rest
      .ok (first :: others)

def fieldValues (room : Nat) (sorted : List (String × Json)) :
    List (Option String × Document) → Except Fault (List (String × Json))
  | [] => .ok sorted
  | (none, _) :: _ => .error .malformed
  | (some key, document) :: rest => do
      let value ← document.value room
      fieldValues room (Assoc.insert key value sorted) rest

end

/-! ## The document of a value -/

mutual

def ofJson : Json → Document
  | .null => .null
  | .bool b => .bool b
  | .number n => .number (some n)
  | .string text => .string (some text)
  | .array items => .array (ofItems items) true
  | .object fields => .object (ofFields fields) true

def ofItems : List Json → List Document
  | [] => []
  | item :: rest => ofJson item :: ofItems rest

def ofFields : List (String × Json) → List (Option String × Document)
  | [] => []
  | (key, value) :: rest => (some key, ofJson value) :: ofFields rest

end

end Document

end JobChain
