import JobChain.Client
import JobChain.Http.Wire
import Std.Async.DNS
import Std.Async.TCP
import Std.Time.DateTime

/-!
# The program of the client

Takes the files that a command needs into a store, does the command there, and
brings the files to the state of the store. Requests go to the service that
`MASTER_URL` names.
-/

namespace JobChain.Program

open Std.Async

/-! ## Files -/

/-- Takes what lies at a path, with everything below it, into a store. -/
partial def take (store : Store) (path : Path) : IO Store := do
  let file := (← IO.currentDir) / path.text
  if ← file.isDir then
    let store := (Store.makeDirectories path store).2
    (← file.readDir).foldlM
      (fun store entry => take store (path.child entry.fileName)) store
  else if ← file.pathExists then
    let content := Content.ofBytes (← IO.FS.readBinFile file).toList
    let store := match path.directory? with
      | some directory => (Store.makeDirectories directory store).2
      | none => store
    return (store.write path content).toOption.getD store
  else return store

/-- An empty store that is entered where the program was started. -/
def start : IO Store := do
  let path : Path := ⟨(← IO.currentDir).toString⟩
  return { (Store.makeDirectories path {}).2 with here := path.pieces.filter (· != "") }

def pathsOf (home? : Option String) (request : ChainRequest) : List Path :=
  [request.dataset.input, request.dataset.output]
  ++ (Package.candidates.map fun candidate => Package.candidatePath candidate.1)
  ++ (home?.map Package.installed).toList

def gather (home? : Option String) (words : List String) : IO Store := do
  match CommandLine.read words with
  | .command command =>
      if command.verb.takesFile then
        let store ← take (← start) ⟨command.operand⟩
        match Client.load store ⟨command.operand⟩ with
        | .ok request => (pathsOf home? request).foldlM take store
        | .error _ => return store
      else start
  | _ => start

def fileOf (place : Place) : String := "/" ++ String.intercalate "/" place

def leave (before after : Store) : IO Unit := do
  for (place, node) in before.nodes.toList.reverse do
    match node, after.node? place with
    | .file _, some (.file _) | .directory, some .directory => pure ()
    | .file _, _ => IO.FS.removeFile (fileOf place)
    | .directory, _ => IO.FS.removeDir (fileOf place)
  for (place, node) in after.nodes.toList do
    if before.node? place ≠ some node then
      match node with
      | .file content =>
          IO.FS.writeBinFile (fileOf place) ⟨content.bytes.toArray⟩
      | .directory => IO.FS.createDirAll (fileOf place)

/-! ## Requests -/

partial def receive (socket : TCP.Socket.Client) (bytes : ByteArray) :
    Async ByteArray := do
  match ← socket.recv? 65536 with
  | some more => receive socket (bytes ++ more)
  | none => return bytes

def exchange (server : ServerAddress) (request : HttpRequest) :
    Async (Option HttpResponse) := do
  let number := UInt16.ofNat server.number
  match (← DNS.getAddrInfo server.host (Text.natText server.number))[0]? with
  | none => return none
  | some address =>
      let socket ← TCP.Socket.Client.mk
      socket.connect <| match address with
        | .v4 address => .v4 ⟨address, number⟩
        | .v6 address => .v6 ⟨address, number⟩
      socket.send ⟨(request.wireBytes server).toArray⟩
      let bytes ← receive socket .empty
      return (String.fromUTF8? bytes).bind HttpResponse.ofWireText?

def send (base : String) (request : HttpRequest) : IO (Option HttpResponse) :=
  do
  match ServerAddress.ofText? base with
  | none => return none
  | some server => try (exchange server request).block catch _ => return none

/-! ## Commands -/

def now : IO Timestamp := do
  let nanoseconds := (← Std.Time.Timestamp.now).toNanosecondsSinceUnixEpoch.val
  return {
    seconds := nanoseconds / 1000000000
    nanoseconds := (nanoseconds % 1000000000).toNat }

def perform (words : List String) : IO Client.Report := do
  let home? ← IO.getEnv homeVariable
  let setting : Client.Setting :=
    { registry := .builtin, home := home?, now := ← now }
  let store ← gather home? words
  match Client.answer setting store words with
  | .done report after =>
      leave store after
      return report
  | .ask request report =>
      let base := (← IO.getEnv "MASTER_URL").getD "http://localhost:8080"
      return ((← send base request).map report).getD
        (.unreachable (base ++ request.target))

end JobChain.Program

def main (words : List String) : IO UInt32 := do
  let report ← JobChain.Program.perform words
  report.lines.forM fun line => IO.println line
  (report.errorLines ++ report.usage).forM fun line => IO.eprintln line
  return report.code.toUInt32
