import JobChain.Job
import JobChain.Json.Printer
import JobChain.OutputFile
import JobChain.Store.Listing
import JobChain.Timestamp

/-!
# Publications

The files that a job reads, the manifest of those that it has published, and the
list of all that a chain has left.
-/

namespace JobChain

/-! ## Inputs -/

namespace InputSpec

/-- The files to read: the input itself, or the files of a directory that belong
to the graph. -/
def files (input : InputSpec) (store : Store) : Except IoError (List Path) :=
  if store.isFile input.location then .ok [input.location]
  else if !store.has input.location then .error (.noInput input.location)
  else do
    let paths ← store.listing (Glob.patternIn input.location "*")
    .ok (paths.filter fun path => store.isFile path && isGraphInput path)

end InputSpec

/-! ## Manifests -/

namespace Manifest

def published (store : Store) (location : Path)
    (names : List String) : List String :=
  names.filter fun name =>
    store.isFile (location.child name) && isPrimaryOutput (location.child name)

def content (files : List String) (time : Timestamp) : Json :=
  .ofFields [("files", .ofStrings files),
    ("written_at", .string time.offsetText)]

def leave (location : Path) (time : Timestamp) : StoreM Unit := do
  let names ← Store.ask fun store => store.names location
  let files := published (← getThe Store) location names
  let text := (content files time).prettyText
  Store.change fun store =>
    store.write (location.child manifestFile) (.text text)

end Manifest

/-! ## Results -/

structure ChainResults where
  chain : String
  output : Path
  files : List String
  deriving DecidableEq, Repr

namespace ChainResults

def collect (chain : String) (output : Path)
    (store : Store) : Except IoError ChainResults :=
  if store.isDirectory output then do
    let paths ← store.listing (Glob.patternIn output "**/*")
    let files := (paths.filter store.isFile).filterMap fun path =>
      (output.below? path).map Path.text
    .ok { chain, output, files := files.mergeSort fun x y => (compare x y).isLE }
  else .ok { chain, output, files := [] }

def toJson (results : ChainResults) : Json :=
  .ofFields
    [("chain_id", .string results.chain), ("output_dir", results.output.toJson),
      ("files", .ofStrings results.files)]

def decoder : Decoder ChainResults :=
  Fields.decode <| ChainResults.mk
    <$> .required "chain_id" Decoder.text
    <*> .required "output_dir" Path.decoder
    <*> .required "files" Decoder.text.list

end ChainResults

end JobChain
