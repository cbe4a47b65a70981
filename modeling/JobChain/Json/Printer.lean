import JobChain.Binary64.Shortest
import JobChain.Json

/-!
# JSON text

Compact text without blanks, and text laid out over lines with two spaces of
indent a level. Fields are written in the order the object lists them.
-/

namespace JobChain

def Number.charsBefore (number : Number) (tail : List Char) : List Char :=
  match number with
  | .int n _ => Text.intChars n ++ tail
  | .float x _ => x.chars ++ tail

namespace Json

/-! ## Strings -/

def hexDigit (n : Nat) : Char :=
  Char.ofNat (if n < 10 then '0'.toNat + n else 'a'.toNat + (n - 10))

/-- A character within quotes: the quote, the backslash and control characters
are escaped. -/
def escapedBefore (c : Char) (tail : List Char) : List Char :=
  if c = '"' then '\\' :: '"' :: tail
  else if c = '\\' then '\\' :: '\\' :: tail
  else if c = '\n' then '\\' :: 'n' :: tail
  else if c = '\r' then '\\' :: 'r' :: tail
  else if c = '\t' then '\\' :: 't' :: tail
  else if c.toNat = 8 then '\\' :: 'b' :: tail
  else if c.toNat = 12 then '\\' :: 'f' :: tail
  else if c.toNat < 32 then
    '\\' :: 'u' :: '0' :: '0' :: hexDigit (c.toNat / 16) ::
      hexDigit (c.toNat % 16) :: tail
  else c :: tail

def quotedBefore (text : String) (tail : List Char) : List Char :=
  '"' :: text.toList.foldr escapedBefore ('"' :: tail)

/-! ## Compact text -/

mutual

def charsBefore : Json → List Char → List Char
  | .null, tail => 'n' :: 'u' :: 'l' :: 'l' :: tail
  | .bool true, tail => 't' :: 'r' :: 'u' :: 'e' :: tail
  | .bool false, tail => 'f' :: 'a' :: 'l' :: 's' :: 'e' :: tail
  | .number n, tail => n.charsBefore tail
  | .string text, tail => quotedBefore text tail
  | .array items, tail => '[' :: itemsBefore items (']' :: tail)
  | .object fields, tail => '\x7b' :: fieldsBefore fields ('\x7d' :: tail)

def itemsBefore : List Json → List Char → List Char
  | [], tail => tail
  | [item], tail => item.charsBefore tail
  | item :: rest, tail => item.charsBefore (',' :: itemsBefore rest tail)

def fieldsBefore : List (String × Json) → List Char → List Char
  | [], tail => tail
  | [(key, value)], tail => quotedBefore key (':' :: value.charsBefore tail)
  | (key, value) :: rest, tail =>
      quotedBefore key (':' ::
        value.charsBefore (',' :: fieldsBefore rest tail))

end

def text (value : Json) : String := String.ofList (value.charsBefore [])

/-! ## Text over lines -/

def lineBefore (level : Nat) (tail : List Char) : List Char :=
  '\n' :: List.replicate (2 * level) ' ' ++ tail

mutual

/-- The laid out text of a value put before a tail. -/
def prettyBefore (level : Nat) : Json → List Char → List Char
  | .array (item :: rest), tail =>
      '[' :: lineBefore (level + 1)
        (item.prettyBefore (level + 1)
          (prettyItemsBefore (level + 1) rest (lineBefore level (']' :: tail))))
  | .object ((key, value) :: rest), tail =>
      '\x7b' :: lineBefore (level + 1)
        (quotedBefore key (':' :: ' ' :: value.prettyBefore (level + 1)
          (prettyFieldsBefore (level + 1) rest
            (lineBefore level ('\x7d' :: tail)))))
  | value, tail => value.charsBefore tail

def prettyItemsBefore (level : Nat) : List Json → List Char → List Char
  | [], tail => tail
  | item :: rest, tail =>
      ',' ::
        lineBefore level
          (item.prettyBefore level (prettyItemsBefore level rest tail))

def prettyFieldsBefore (level : Nat) : List (String × Json) → List Char →
    List Char
  | [], tail => tail
  | (key, value) :: rest, tail =>
      ',' :: lineBefore level
        (quotedBefore key
          (':' :: ' ' ::
            value.prettyBefore level (prettyFieldsBefore level rest tail)))

end

def prettyText (value : Json) : String :=
  String.ofList (value.prettyBefore 0 [])

end Json

end JobChain
