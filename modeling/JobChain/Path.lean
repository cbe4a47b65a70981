import JobChain.Text.Blank

/-!
# Paths

A path is a text whose names are separated by slashes. Repeated slashes and dots
between names mean nothing, so paths are compared by their components.
-/

namespace JobChain

structure Path where
  text : String
  deriving DecidableEq, Repr, Inhabited

namespace Path

inductive Component where
  | root
  | current
  | parent
  | normal (name : String)
  deriving DecidableEq, Repr

def isAbsolute (path : Path) : Bool := path.text.toList.head? = some '/'

def pieces (path : Path) : List String :=
  (Text.splitAt (fun c => c = '/') path.text.toList).map String.ofList

def component? (piece : String) : Option Component :=
  if piece = "" ∨ piece = "." then none
  else if piece = ".." then some .parent
  else some (.normal piece)

def components (path : Path) : List Component :=
  let front : List Component :=
    if path.isAbsolute then [.root]
    else if path.pieces.head? = some "." then [.current]
    else []
  front ++ path.pieces.filterMap component?

def join (base : Path) (path : Path) : Path :=
  if path.isAbsolute then path
  else if base.text = "" then path
  else if base.text.toList.getLast? = some '/' then ⟨base.text ++ path.text⟩
  else ⟨base.text ++ "/" ++ path.text⟩

def child (base : Path) (name : String) : Path := base.join ⟨name⟩

def fileName? (path : Path) : Option String :=
  match path.components.getLast? with
  | some (.normal name) => some name
  | _ => none

def ofComponents : List Component → Path
  | [.root] => ⟨"/"⟩
  | components =>
      let texts := components.map fun
        | .root => ""
        | .current => "."
        | .parent => ".."
        | .normal name => name
      ⟨String.intercalate "/" texts⟩

/-- The path of the directory that holds a path; none for the root and the empty
path. -/
def directory? (path : Path) : Option Path :=
  match path.components.reverse with
  | [] | [.root] => none
  | _ :: rest => some (ofComponents rest.reverse)

/-- Components in reverse, and the directories around them, the nearest
first. -/
def directoriesOf : List Component → List Path
  | [] | [.root] => []
  | _ :: rest => ofComponents rest.reverse :: directoriesOf rest

def directories (path : Path) : List Path :=
  directoriesOf path.components.reverse

/-! ## Order -/

def componentRank : Component → Nat
  | .root => 0
  | .current => 1
  | .parent => 2
  | .normal _ => 3

def orderComponent : Component → Component → Ordering
  | .normal x, .normal y => compare x y
  | x, y => compare (componentRank x) (componentRank y)

def orderComponents : List Component → List Component → Ordering
  | [], [] => .eq
  | [], _ :: _ => .lt
  | _ :: _, [] => .gt
  | x :: xs, y :: ys => (orderComponent x y).then (orderComponents xs ys)

def order (x y : Path) : Ordering := orderComponents x.components y.components

def sort (paths : List Path) : List Path :=
  paths.mergeSort fun x y => (x.order y).isLE

/-! ## Paths below a directory -/

def dropComponents : List Component → List Component → Option (List Component)
  | [], rest => some rest
  | _ :: _, [] => none
  | x :: xs, y :: ys => if x = y then dropComponents xs ys else none

def below? (directory path : Path) : Option Path :=
  (dropComponents directory.components path.components).map ofComponents

/-- A path that names something and never leaves the directory it is taken
from. -/
def isConfined (path : Path) : Bool :=
  path.components.any (fun
    | .normal _ => true
    | _ => false) &&
  path.components.all fun
    | .normal _ | .current => true
    | _ => false

end Path

end JobChain
