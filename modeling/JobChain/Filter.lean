import JobChain.Criterion
import JobChain.Element
import JobChain.Stage
import JobChain.Task

/-!
# Filters

A filter takes the paths from the elements that fail a criterion: from vertices,
or from the edges of each vertex. It hands on every record, so it never makes a
stream shorter.
-/

namespace JobChain.Filter

inductive ElementKind where
  | vertex
  | edge
  deriving DecidableEq, Repr

def ElementKind.names : List (String × ElementKind) :=
  [("vertex", .vertex), ("edge", .edge)]

def ElementKind.decoder : Decoder ElementKind := Decoder.oneOf names

def ElementKind.text : ElementKind → String
  | .vertex => "vertex"
  | .edge => "edge"

def ElementKind.ofText? (text : String) : Option ElementKind :=
  names.lookup (Text.trim text)

def functionName : String := "filter"

def elementOption : String := "filter.element"

def criterionOption : String := "filter.predicate"

/-! ## The effect on an element -/

/-- An element on the way of a path that fails the criterion. -/
def rejects (criterion : Criterion.Compiled) (element : Json) : Bool :=
  Element.hasPaths element && !criterion.holds element

def strip (criterion : Criterion.Compiled) (element : Json) : Json :=
  if rejects criterion element then Element.clearPaths element else element

/-- The value with the paths of failing elements taken, and how many failed. -/
def apply (kind : ElementKind) (criterion : Criterion.Compiled)
    (value : Json) : Json × Nat :=
  match kind with
  | .vertex => (strip criterion value, if rejects criterion value then 1 else 0)
  | .edge =>
      (Element.mapEdges (strip criterion) value,
        (Element.edges value).countP (rejects criterion))

/-! ## The function -/

structure State where
  kind : Option ElementKind := none
  criterion : Option Criterion.Compiled := none
  deriving DecidableEq

inductive SetupError where
  | missing (name : String)
  | badKind (text : String)
  | unreadable
  | badCriterion (error : CriterionError)
  deriving DecidableEq, Repr

def SetupError.failure : SetupError → Failure
  | .missing name => .ofText ("falta la opción " ++ name)
  | .badKind text => .ofText ("tipo de elemento inválido: " ++ text)
  | .unreadable =>
      (ChainError.criterion .unreadable).failure.within
        "decodificando predicado del filtro"
  | .badCriterion error => (ChainError.criterion error).failure

def readKind (options : Options) : Except SetupError ElementKind :=
  match options.get? elementOption with
  | none => .error (.missing elementOption)
  | some text =>
      match ElementKind.ofText? text with
      | none => .error (.badKind text)
      | some kind => .ok kind

def readCriterion (options : Options) : Except SetupError Criterion.Compiled :=
  match options.get? criterionOption with
  | none => .error (.missing criterionOption)
  | some encoded =>
      match Criterion.decode encoded with
      | .error _ => .error .unreadable
      | .ok criterion => criterion.compile.mapError .badCriterion

def setup (options : Options) (state : State) : Reply State :=
  match readKind options with
  | .error error => .fail state error.failure
  | .ok kind =>
      let state := { state with kind := some kind }
      match readCriterion options with
      | .error error => .fail state error.failure
      | .ok criterion => .silent { state with criterion := some criterion }

def countAction : ElementKind → Nat → List Action
  | .vertex, 0 => []
  | .vertex, n => [.count "filter" "VERTICES_FILTERED" n]
  | .edge, n => [.count "filter" "EDGES_FILTERED" n]

def map (_ : Options) (state : State) (pair : Pair) : Reply State :=
  match state.kind, state.criterion with
  | some kind, some criterion =>
      let (value, failed) := apply kind criterion pair.value
      { actions := countAction kind failed ++ [.write
        { pair with value }], state }
  | _, _ => .fail state (.ofText "filter usado sin setup")

def function : MapFunction := { State := State, start := {}, setup, map }

/-! ## Filters as stages -/

def options (kind : ElementKind) (criterion : Criterion) : Options :=
  .ofList [(elementOption, kind.text), (criterionOption, criterion.encode)]

def stage (name : String) (kind : ElementKind)
    (criterion : Criterion) : Stage :=
  { name, kind := .mapOnly, map := functionName, mapOutput := some .graph
    options := options kind criterion }

end JobChain.Filter
