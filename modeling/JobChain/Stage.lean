import JobChain.Binary64.Reader
import JobChain.Error
import JobChain.Json.Order
import JobChain.Options

/-!
# Stages

A stage is one step that a user asks for: a map alone, or a map and a reduce
with a shuffle between them. It names its functions; whoever runs it knows them
by name.
-/

namespace JobChain

/-! ## Parts of a stage -/

inductive StageKind where
  | mapOnly
  | mapReduce
  deriving DecidableEq, Repr

/-- Labels for the keys and values of a function's output. They are carried and
never checked. -/
inductive FieldType where
  | null
  | text
  | long
  | double
  | boolean
  | vertex
  | json
  deriving DecidableEq, Repr

structure PairType where
  key : FieldType
  value : FieldType
  deriving DecidableEq, Repr

def PairType.graph : PairType := ⟨.null, .vertex⟩

/-- How the keys of a shuffle are ordered. -/
inductive KeyOrder where
  | natural
  | reverse
  | numeric
  deriving DecidableEq, Repr

namespace KeyOrder

def number? : Json → Option Binary64
  | .number n => some n.toBinary64
  | .string text => Binary64.ofText? (Text.trim text)
  | _ => none

def compare (order : KeyOrder) (x y : Json) : Ordering :=
  match order with
  | .natural => x.order y
  | .reverse => y.order x
  | .numeric =>
      match number? x, number? y with
      | some m, some n => m.totalOrder n
      | _, _ => x.order y

end KeyOrder

structure Stage where
  name : String
  kind : StageKind
  map : String
  combine : Option String := none
  reduce : Option String := none
  keyOrder : Option KeyOrder := none
  mapOutput : Option PairType := none
  reduceOutput : Option PairType := none
  options : Options := SortedMap.empty
  deriving DecidableEq

namespace Stage

def isMapReduce (stage : Stage) : Bool := stage.kind = .mapReduce

/-- The rules that a stage must keep, the first one broken reported. -/
def check (stage : Stage) : Except ShapeError Unit :=
  if Text.isBlankText stage.map then .error (.noMap stage.name)
  else
    match stage.kind with
    | .mapOnly =>
        if stage.combine.isSome || stage.reduce.isSome ||
          stage.keyOrder.isSome then
          .error (.mapOnlyExtras stage.name)
        else .ok ()
    | .mapReduce =>
        if stage.reduce.isNone then .error (.noReduce stage.name)
        else if stage.mapOutput.isNone || stage.reduceOutput.isNone then
          .error (.noTypes stage.name)
        else .ok ()

end Stage

/-! ## As JSON -/

def StageKind.names : List (String × StageKind) :=
  [("MAP_ONLY", .mapOnly), ("MAP_REDUCE", .mapReduce)]

def FieldType.names : List (String × FieldType) :=
  [("null", .null), ("text", .text), ("long", .long), ("double", .double),
    ("boolean", .boolean), ("vertex", .vertex), ("json", .json)]

def KeyOrder.names : List (String × KeyOrder) :=
  [("natural", .natural), ("reverse", .reverse), ("numeric", .numeric)]

def KeyOrder.toJson (order : KeyOrder) : Json := nameIn names order

def KeyOrder.decoder : Decoder KeyOrder := Decoder.oneOf names

namespace PairType

def toJson (pair : PairType) : Json :=
  .ofFields
    [("key", nameIn FieldType.names pair.key),
      ("value", nameIn FieldType.names pair.value)]

def decoder : Decoder PairType :=
  Fields.decode <| PairType.mk
    <$> .required "key" (Decoder.oneOf FieldType.names)
    <*> .required "value" (Decoder.oneOf FieldType.names)

end PairType

namespace Stage

def toJson (stage : Stage) : Json :=
  .ofFields <|
    [("name", .string stage.name), ("kind", nameIn StageKind.names stage.kind),
      ("map", .string stage.map)]
    ++ optionalField "combine" .string stage.combine
    ++ optionalField "reduce" .string stage.reduce
    ++ optionalField "sort_comparator" KeyOrder.toJson stage.keyOrder
    ++ optionalField "map_output" PairType.toJson stage.mapOutput
    ++ optionalField "reduce_output" PairType.toJson stage.reduceOutput
    ++ [("config", stage.options.toJson)]

def decoder : Decoder Stage :=
  Fields.decode <| Stage.mk
    <$> .required "name" Decoder.text
    <*> .required "kind" (Decoder.oneOf StageKind.names)
    <*> .required "map" Decoder.text
    <*> .optional "combine" Decoder.text.option none
    <*> .optional "reduce" Decoder.text.option none
    <*> .optional "sort_comparator" KeyOrder.decoder.option none
    <*> .optional "map_output" PairType.decoder.option none
    <*> .optional "reduce_output" PairType.decoder.option none
    <*> .optional "config" Options.decoder .empty

end Stage

end JobChain
