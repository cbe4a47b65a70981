import JobChain.Content
import JobChain.Error
import JobChain.SortedMap

/-!
# File stores

A store holds files and directories at places, lists of names from the root. A
path is followed step by step from where the store is entered, and every step
has to start in a directory.
-/

namespace JobChain

abbrev Place := List String

inductive Node where
  | file (content : Content)
  | directory
  deriving DecidableEq

structure Store where
  nodes : SortedMap Place Node := SortedMap.empty
  here : Place := []
  deriving DecidableEq

/-- Work on a store that may fail; what was done before stays done. -/
abbrev StoreM := ExceptT IoError (StateM Store)

namespace Store

/-! ## Places -/

def node? (store : Store) (place : Place) : Option Node :=
  if place = [] then some .directory else store.nodes.get? place

def put (store : Store) (place : Place) (node : Node) : Store :=
  { store with nodes := store.nodes.insert place node }

def isBelow (place other : Place) : Bool := place.isPrefixOf other &&
    place != other

def clear (store : Store) (place : Place) : Store :=
  { store with nodes := store.nodes.filter fun other _ => !isBelow place other }

def remove (store : Store) (place : Place) : Store :=
  { store with nodes := store.nodes.erase place }

def namesIn (store : Store) (place : Place) : List String :=
  store.nodes.toList.filterMap fun entry =>
    if isBelow place entry.1 && entry.1.length = place.length + 1 then
      entry.1.getLast?
    else none

/-! ## Paths -/

def nameLimit : Nat := 255

def pathLimit : Nat := 4095

def descend (place : Place) (step : String) : Except StoreError Place :=
  if step = "" ∨ step = "." then .ok place
  else if step = ".." then .ok place.dropLast
  else if nameLimit < step.utf8ByteSize then .error .nameTooLong
  else .ok (place ++ [step])

def enter (store : Store) (place : Place) :
    List String → Except StoreError Place
  | [] => check
  | step :: rest => do
      let place ← check
      enter store (← descend place step) rest
where
  check : Except StoreError Place :=
    match store.node? place with
    | some .directory => .ok place
    | some (.file _) => .error .notDirectory
    | none => .error .notFound

/-- A path cut before its last step, and whether slashes stand behind that. -/
structure Route where
  before : List String
  last : String
  slashed : Bool

def routeOf (path : Path) : Route :=
  let steps := path.pieces.reverse
  match steps.dropWhile (· = "") with
  | [] => { before := [], last := ".", slashed := true }
  | last :: before =>
      { before := before.reverse, last, slashed := steps.head? = some "" }

def enterRoute (store : Store) (path : Path) : Except StoreError Place :=
  if path.text.toList.contains '\x00' then .error .noName
  else if path.text = "" then .error .notFound
  else if pathLimit < path.text.utf8ByteSize then .error .nameTooLong
  else store.enter (if path.isAbsolute then [] else store.here)
  (routeOf path).before

def find (store : Store) (path : Path) : Except StoreError (Place × Node) := do
  let route := routeOf path
  let place ← descend (← store.enterRoute path) route.last
  match store.node? place with
  | none => .error .notFound
  | some (.file content) =>
      if route.slashed then .error .notDirectory else .ok (place, .file content)
  | some .directory => .ok (place, .directory)

def has (store : Store) (path : Path) : Bool := (store.find path).isOk

def isFile (store : Store) (path : Path) : Bool :=
  match store.find path with
  | .ok (_, .file _) => true
  | _ => false

def isDirectory (store : Store) (path : Path) : Bool :=
  match store.find path with
  | .ok (_, .directory) => true
  | _ => false

def names (store : Store) (path : Path) : Except StoreError (List String) := do
  match ← store.find path with
  | (place, .directory) => .ok (store.namesIn place)
  | (_, .file _) => .error .notDirectory

def read (store : Store) (path : Path) : Except StoreError Content := do
  match ← store.find path with
  | (_, .file content) => .ok content
  | (_, .directory) => .error .isDirectory

/-! ## Changes -/

def isDots (step : String) : Bool := step = "." || step = ".."

def makeDirectory (store : Store) (path : Path) : Except StoreError Store := do
  let route := routeOf path
  let place ← descend (← store.enterRoute path) route.last
  if isDots route.last || (store.node? place).isSome then .error .exists
  else .ok (store.put place .directory)

def write (store : Store) (path : Path) (content : Content) :
    Except StoreError Store := do
  let route := routeOf path
  let directory ← store.enterRoute path
  if route.slashed || isDots route.last then .error .isDirectory
  else
    let place ← descend directory route.last
    if store.node? place = some .directory then .error .isDirectory
    else .ok (store.put place (.file content))

def removeEmpty (store : Store) (path : Path) : Except StoreError Store := do
  let route := routeOf path
  let directory ← store.enterRoute path
  if route.last = "." then .error .invalid
  else if route.last = ".." then .error .notEmpty
  else
    let place ← descend directory route.last
    match store.node? place with
    | none => .error .notFound
    | some (.file _) => .error .notDirectory
    | some .directory =>
        if (store.namesIn place).isEmpty then .ok (store.remove place)
        else .error .notEmpty

def change (f : Store → Except StoreError Store) : StoreM Unit := fun store =>
  match f store with
  | .ok store => (.ok (), store)
  | .error error => (.error (.store error), store)

def ask {α : Type} (f : Store → Except StoreError α) : StoreM α := fun store =>
  ((f store).mapError .store, store)

/-- Makes the first of some directories, each of which lies in the next, and
before it those that are missing. -/
def makeFirst : List Path → StoreM Unit
  | [] => pure ()
  | path :: outer => fun store =>
      if path.text = "" then (.ok (), store)
      else
        match store.makeDirectory path with
        | .ok store => (.ok (), store)
        | .error .notFound =>
            match makeFirst outer store with
            | (.error error, store) => (.error error, store)
            | (.ok (), store) =>
                match store.makeDirectory path with
                | .ok store => (.ok (), store)
                | .error error => refused path error store
        | .error error => refused path error store
where
  refused (path : Path) (error : StoreError) (store : Store) :
      Except IoError Unit × Store :=
    (if store.isDirectory path then .ok () else .error (.store error), store)

/-- Makes a directory and those around it unless they are there. -/
def makeDirectories (path : Path) : StoreM Unit :=
  makeFirst (path :: path.directories)

/-- Deletes a file or a directory, with everything below it if that is wanted;
false when there was nothing. A path may lead through what lies below the
directory; when that is gone the path leads nowhere any more, and the directory
stays. -/
def delete (path : Path) (recursive : Bool) : StoreM Bool := fun store =>
  match store.find path with
  | .error .notFound => (.ok false, store)
  | .error error => (.error (.store error), store)
  | .ok (place, .file _) => (.ok true, store.remove place)
  | .ok (place, .directory) =>
      let store := if recursive then store.clear place else store
      match store.removeEmpty path with
      | .ok store => (.ok true, store)
      | .error .notFound => (.ok true, store)
      | .error error => (.error (.store error), store)

end Store

end JobChain
