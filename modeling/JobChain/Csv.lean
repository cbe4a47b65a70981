import JobChain.Content
import JobChain.Json.Printer

/-!
# Comma-separated values

A file is read as records of fields. Commas separate fields and line ends
separate records; a field that begins with a quote may hold both, and a doubled
quote there stands for one. What follows a closing quote belongs to the field as
it is, and an open quote runs to the end of the file. The bytes of a field,
which have to be UTF-8 only when all of them are together, are its text. The
first record names the fields of all others.
-/

namespace JobChain.Csv

/-! ## Reading -/

/-- Where a reader stands: between records, at the front of a field, in a plain
field, in a quoted one, or behind a quote in a quoted one. -/
inductive Position where
  | between
  | front
  | plain
  | quoted
  | quote
  deriving DecidableEq, Repr

/-- Fields and records are kept in reverse, and so are the bytes of the open
field. -/
structure Reader where
  position : Position := .between
  field : List UInt8 := []
  fields : List (List UInt8) := []
  records : List (List (List UInt8)) := []

namespace Reader

def comma : UInt8 := 44

def quoteMark : UInt8 := 34

def isLineEnd (byte : UInt8) : Bool := byte = 10 || byte = 13

def put (reader : Reader) (position : Position) (byte : UInt8) : Reader :=
  { reader with position, field := byte :: reader.field }

def endField (reader : Reader) : Reader :=
  { reader with
    position := .front, field := [], fields := reader.field.reverse ::
      reader.fields }

def endRecord (reader : Reader) : Reader :=
  let reader := reader.endField
  { position := .between, records := reader.fields.reverse :: reader.records }

def readPlain (reader : Reader) (byte : UInt8) : Reader :=
  if byte = comma then reader.endField
  else if isLineEnd byte then reader.endRecord
  else reader.put .plain byte

def read (reader : Reader) (byte : UInt8) : Reader :=
  match reader.position with
  | .between =>
      if isLineEnd byte then reader
      else if byte = quoteMark then { reader with position := .quoted }
      else reader.readPlain byte
  | .front =>
      if byte = quoteMark then { reader with position := .quoted }
      else reader.readPlain byte
  | .plain => reader.readPlain byte
  | .quoted =>
      if byte = quoteMark then { reader with position := .quote }
      else reader.put .quoted byte
  | .quote => if byte = quoteMark then reader.put .quoted byte
      else reader.readPlain byte

def finish (reader : Reader) : List (List (List UInt8)) :=
  (if reader.position = .between then
    reader else reader.endRecord).records.reverse

end Reader

def byteOrderMark : Char := Char.ofNat 0xFEFF

def dropMark : List UInt8 → List UInt8
  | 0xEF :: 0xBB :: 0xBF :: rest => rest
  | bytes => bytes

def fieldOf? (bytes : List UInt8) : Option String :=
  (String.fromUTF8? ⟨bytes.toArray⟩).map Text.trim

def records? (content : Content) : Option (List (List String)) :=
  ((dropMark content.bytes).foldl Reader.read {}).finish.mapM fun fields =>
    fields.mapM fieldOf?

def dropMarks (name : String) : String :=
  String.ofList (name.toList.dropWhile fun c => c = byteOrderMark)

/-- A record as an object; a missing field is empty, and of a repeated name the
last field stays. -/
def object (names fields : List String) : Json :=
  .object (insertFields [] names fields)
where
  insertFields (sorted : List (String × Json)) :
      List String → List String → List (String × Json)
    | [], _ => sorted
    | name :: names, [] =>
        insertFields (Assoc.insert name (.string "") sorted) names []
    | name :: names, field :: fields =>
        insertFields (Assoc.insert name (.string field) sorted) names fields

def objects? (content : Content) : Option (List Json) :=
  (records? content).map fun
    | [] => []
    | names :: rows => rows.map (object (names.map dropMarks))

/-! ## Writing -/

def needsQuotes (field : String) : Bool :=
  field.toList.any fun c => c = ',' || c = '"' || c = '\n' || c = '\r'

def quoteChars : List Char → List Char
  | [] => []
  | c :: rest =>
      if c = '"' then '"' :: '"' :: quoteChars rest else c :: quoteChars rest

def fieldText (field : String) : String :=
  if needsQuotes field then
    String.ofList ('"' :: (quoteChars field.toList ++ ['"']))
  else field

def line (fields : List String) : String :=
  String.intercalate "," (fields.map fieldText) ++ "\n"

/-- A value as a field: a string as it is, null as nothing, and anything else as
JSON. -/
def scalar : Json → String
  | .string text => text
  | .null => ""
  | value => value.text

end JobChain.Csv
