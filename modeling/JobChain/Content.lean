import JobChain.Text.Blank

/-!
# File contents

A file holds text or, when its bytes are no UTF-8, bytes as they are.
-/

namespace JobChain

inductive Content where
  | text (text : String)
  | raw (bytes : List UInt8)
  deriving DecidableEq, Repr

namespace Content

def ofBytes (bytes : List UInt8) : Content :=
  match String.fromUTF8? ⟨bytes.toArray⟩ with
  | some words => .text words
  | none => .raw bytes

def bytes : Content → List UInt8
  | .text words => words.toUTF8.toList
  | .raw bytes => bytes

def text? : Content → Option String
  | .text words => some words
  | .raw _ => none

def isEmpty : Content → Bool
  | .text words => words.isEmpty
  | .raw bytes => bytes.isEmpty

def size : Content → Nat
  | .text words => words.utf8ByteSize
  | .raw bytes => bytes.length

/-! ## As JSON text -/

/-- What stands for a byte that belongs to no character. It is no JSON between
values or behind a backslash, and within quotes it makes a flaw. -/
def unreadable : List Char := "x\\udc00\\udc00".toList

def firstChar? (bytes : List UInt8) : Option (List Char × Nat) :=
  [1, 2, 3, 4].findSome? fun count =>
    (String.fromUTF8? ⟨(bytes.take count).toArray⟩).map fun words =>
      (words.toList, count)

def charsOfBytes : Nat → List UInt8 → List Char
  | 0, _ | _, [] => []
  | steps + 1, byte :: rest =>
      match firstChar? (byte :: rest) with
      | some (char, count) =>
          char ++ charsOfBytes steps ((byte :: rest).drop count)
      | none => unreadable ++ charsOfBytes steps rest

def jsonChars : Content → List Char
  | .text words => words.toList
  | .raw bytes => charsOfBytes bytes.length bytes

/-! ## Lines -/

def linePieces {α : Type} (strip : List α → List α) : List (List α) →
    List (List α)
  | [] => []
  | [last] => if last.isEmpty then [] else [last]
  | piece :: rest => strip piece :: linePieces strip rest

def dropLast? {α : Type} [DecidableEq α] (carriage : α)
    (piece : List α) : List α :=
  if piece.getLast? = some carriage then piece.dropLast else piece

/-- The lines, none for one that is no UTF-8. A line ends in a line feed, before
which a carriage return may stand. -/
def lines : Content → List (Option String)
  | .text words =>
      (linePieces (dropLast? '\r')
        (Text.splitAt (fun c => c = '\n') words.toList)).map fun line =>
        some (String.ofList line)
  | .raw bytes =>
      (linePieces (dropLast? 13)
        (Text.splitAt (fun byte => byte = 10) bytes)).map fun line =>
        String.fromUTF8? ⟨line.toArray⟩

end Content

end JobChain
