import JobChain.Csv
import JobChain.Error
import JobChain.Json.Decode
import JobChain.Store
import JobChain.Task

/-!
# Record formats

The ways in which records are written to files and read from them. Only the
format between jobs keeps the keys of all records.
-/

namespace JobChain

/-- JSON values line by line; pairs of key and value line by line;
comma-separated values, which are read as objects and written as key and
value. -/
inductive RecordFormat where
  | jsonLines
  | keyValue
  | csv
  deriving DecidableEq, Repr

namespace RecordFormat

def names : List (String × RecordFormat) :=
  [("json_lines", .jsonLines), ("key_value", .keyValue), ("csv", .csv)]

def toJson (format : RecordFormat) : Json := nameIn names format

def decoder : Decoder RecordFormat := Decoder.oneOf names

def ending : RecordFormat → String
  | .jsonLines => "jsonl"
  | .keyValue => "kv"
  | .csv => "csv"

def intermediate : RecordFormat := .keyValue

/-! ## Reading -/

/-- Reads the lines that hold more than blanks, each with one JSON value. -/
def readLines (decode : Json → Except IoError Pair) :
    List (Option String) → Except IoError (List Pair)
  | [] => .ok []
  | none :: _ => .error .notText
  | some line :: rest =>
      if Text.isBlankText line then readLines decode rest
      else
        match Json.ofText? line with
        | none => .error .notJson
        | some value => do
            let pair ← decode value
            let pairs ← readLines decode rest
            .ok (pair :: pairs)

def readPair (file : Path) (value : Json) : Except IoError Pair :=
  match value.field? "v" with
  | some v => .ok ⟨(value.field? "k").getD .null, v⟩
  | none => .error (.noValue file)

def read (format : RecordFormat) (file : Path)
    (content : Content) : Except IoError (List Pair) :=
  match format with
  | .jsonLines => readLines (fun value => .ok ⟨.null, value⟩) content.lines
  | .keyValue => readLines (readPair file) content.lines
  | .csv =>
      match Csv.objects? content with
      | some values => .ok (values.map fun value => ⟨.null, value⟩)
      | none => .error .notCsv

/-! ## Writing -/

def pairJson (pair : Pair) : Json :=
  .ofFields [("k", pair.key), ("v", pair.value)]

def line : RecordFormat → Pair → String
  | .jsonLines, pair => pair.value.text ++ "\n"
  | .keyValue, pair => (pairJson pair).text ++ "\n"
  | .csv, pair => Csv.line [Csv.scalar pair.key, Csv.scalar pair.value]

def write (format : RecordFormat) (pairs : List Pair) : String :=
  String.join (pairs.map format.line)

/-! ## Files -/

def load (format : RecordFormat) (path : Path) : StoreM (List Pair) := do
  let content ← Store.ask fun store => store.read path
  format.read path content

def save (format : RecordFormat) (path : Path) (pairs : List Pair) :
    StoreM Unit := do
  match path.directory? with
  | some directory =>
      if directory.text ≠ "" then Store.makeDirectories directory
  | none => pure ()
  Store.change fun store => store.write path (.text (format.write pairs))

end RecordFormat

end JobChain
