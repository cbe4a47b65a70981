import JobChain.Builtin

/-!
# Registries

A registry knows functions by name. A function is fresh each time that it is
taken from one.
-/

namespace JobChain

structure Registry where
  maps : SortedMap String MapFunction := SortedMap.empty
  reduces : SortedMap String ReduceFunction := SortedMap.empty

namespace Registry

def empty : Registry := {}

def addMap (registry : Registry) (name : String)
    (function : MapFunction) : Registry :=
  { registry with maps := registry.maps.insert name function }

def addReduce (registry : Registry) (name : String)
    (function : ReduceFunction) : Registry :=
  { registry with reduces := registry.reduces.insert name function }

def builtin : Registry :=
  ((((((empty.addMap "identity" Builtin.identity).addMap "start-paths"
    Builtin.startPaths).addMap Filter.functionName Filter.function).addMap
    "group-count" Builtin.groupCount).addReduce "sum" Builtin.sums).addReduce
    "sum-side-effect" Builtin.sideSums)

def hasMap (registry : Registry) (name : String) : Bool :=
  registry.maps.contains name

def hasReduce (registry : Registry) (name : String) : Bool :=
  registry.reduces.contains name

inductive LookupError where
  | noMap (name : String)
  | noReduce (name : String)
  deriving DecidableEq, Repr

def LookupError.message : LookupError → String
  | .noMap name => "mapper desconocido: " ++ name
  | .noReduce name => "reducer desconocido: " ++ name

def LookupError.failure (error : LookupError) : Failure := .ofText error.message

def findMap (registry : Registry)
    (name : String) : Except LookupError MapFunction :=
  match registry.maps.get? name with
  | some function => .ok function
  | none => .error (.noMap name)

def findReduce (registry : Registry) (name : String) :
    Except LookupError ReduceFunction :=
  match registry.reduces.get? name with
  | some function => .ok function
  | none => .error (.noReduce name)

/-- The functions of some names, the first unknown one reported. -/
def findMaps (registry : Registry) :
    List String → Except LookupError (List MapFunction)
  | [] => .ok []
  | name :: rest =>
      match registry.findMap name, registry.findMaps rest with
      | .error error, _ => .error error
      | .ok _, .error error => .error error
      | .ok function, .ok functions => .ok (function :: functions)

end Registry

end JobChain
