import JobChain.Json
import JobChain.Text.Blank

/-!
# Elements of a graph

A vertex is an object with an id, a label, properties, paths, and lists of
edges; an edge is an object of the same kind without those lists. The paths of
an element are a list of whole paths or only their count.
-/

namespace JobChain.Element

def field? (element : Json) (path : String) : Option Json :=
  element.at? ((Text.splitAt (fun c => c = '.') path.toList).map String.ofList)

def pathCount (element : Json) : Nat :=
  match element.field? "paths" with
  | some (.number n) => n.toNat?.getD 0
  | some (.array paths) => paths.length
  | _ => 0

def hasPaths (element : Json) : Bool := 0 < pathCount element

/-- Leaves an element without paths; a list becomes empty and anything else
zero. -/
def clearPaths (element : Json) : Json :=
  let cleared : Json := match element.field? "paths" with
    | some (.array _) => .array []
    | _ => .ofNat 0
  element.setField "paths" cleared

def startPaths (wholePaths : Bool) (element : Json) : Json :=
  let id := (element.field? "id").getD .null
  element.setField "paths"
    (if wholePaths then .array [.array [id]] else .ofNat 1)

/-! ## Edges -/

def edgesAt (side : String) (vertex : Json) : List Json :=
  ((vertex.field? side).bind Json.items?).getD []

def edges (vertex : Json) : List Json :=
  edgesAt "out_edges" vertex ++ edgesAt "in_edges" vertex

def mapEdgesAt (side : String) (f : Json → Json) (vertex : Json) : Json :=
  match vertex.field? side with
  | some (.array edges) => vertex.setField side (.array (edges.map f))
  | _ => vertex

def mapEdges (f : Json → Json) (vertex : Json) : Json :=
  mapEdgesAt "in_edges" f (mapEdgesAt "out_edges" f vertex)

end JobChain.Element
