import JobChain.Dataset
import JobChain.Plan

/-!
# Jobs

A job is a block of stages wired to its input and its outputs, ready to run.
-/

namespace JobChain

structure InputSpec where
  location : Path
  format : RecordFormat
  deriving DecidableEq, Repr

structure NamedOutput where
  name : String
  format : RecordFormat
  deriving DecidableEq, Repr

structure OutputSpec where
  location : Path
  format : RecordFormat
  named : List NamedOutput
  deriving DecidableEq, Repr

structure Job where
  ordinal : Nat
  name : String
  stages : List Stage
  input : InputSpec
  output : OutputSpec
  options : Options
  keyOrder : Option KeyOrder := none
  combiner : Option String := none
  reducer : Option String := none
  reduceTasks : Nat
  package : Path
  deriving DecidableEq

def OutputSpec.formatOf? (output : OutputSpec)
    (name : String) : Option RecordFormat :=
  (output.named.find? fun entry => entry.name = name).map NamedOutput.format

namespace Job

def hasReduce (job : Job) : Bool := job.reducer.isSome

/-- The names of the map functions in the order in which they run. -/
def maps (job : Job) : List String := job.stages.map Stage.map

/-- The options that the reduce side and the combiner see, those of the last
stage. -/
def reduceView (job : Job) : Options := job.options.view (job.stages.length - 1)

/-- Whether a manifest of the published files is left at the end. -/
def publishes (job : Job) : Bool := job.output.format = .jsonLines

end Job

/-! ## As JSON -/

namespace InputSpec

def toJson (input : InputSpec) : Json :=
  .ofFields [("location", input.location.toJson),
    ("format", input.format.toJson)]

def decoder : Decoder InputSpec :=
  Fields.decode <| InputSpec.mk
    <$> .required "location" Path.decoder
    <*> .required "format" RecordFormat.decoder

end InputSpec

namespace NamedOutput

def toJson (output : NamedOutput) : Json :=
  .ofFields [("name", .string output.name), ("format", output.format.toJson)]

def decoder : Decoder NamedOutput :=
  Fields.decode <| NamedOutput.mk
    <$> .required "name" Decoder.text
    <*> .required "format" RecordFormat.decoder

end NamedOutput

namespace OutputSpec

def toJson (output : OutputSpec) : Json :=
  .ofFields
    [("location", output.location.toJson), ("format", output.format.toJson),
      ("named", .array (output.named.map NamedOutput.toJson))]

def decoder : Decoder OutputSpec :=
  Fields.decode <| OutputSpec.mk
    <$> .required "location" Path.decoder
    <*> .required "format" RecordFormat.decoder
    <*> .required "named" NamedOutput.decoder.list

end OutputSpec

namespace Job

def toJson (job : Job) : Json :=
  .ofFields <|
    [("ordinal", .ofNat job.ordinal), ("name", .string job.name),
      ("stages", .array (job.stages.map Stage.toJson)),
      ("input", job.input.toJson), ("output", job.output.toJson),
      ("configuration", job.options.toJson)]
    ++ optionalField "comparator" KeyOrder.toJson job.keyOrder
    ++ optionalField "combiner" .string job.combiner
    ++ optionalField "reducer" .string job.reducer
    ++ [("reduce_tasks", .ofNat job.reduceTasks),
      ("package", job.package.toJson)]

def decoder : Decoder Job :=
  Fields.decode <| Job.mk
    <$> .required "ordinal" Decoder.nat
    <*> .required "name" Decoder.text
    <*> .required "stages" Stage.decoder.list
    <*> .required "input" InputSpec.decoder
    <*> .required "output" OutputSpec.decoder
    <*> .required "configuration" Options.decoder
    <*> .optional "comparator" KeyOrder.decoder.option none
    <*> .optional "combiner" Decoder.text.option none
    <*> .optional "reducer" Decoder.text.option none
    <*> .required "reduce_tasks" Decoder.nat
    <*> .required "package" Path.decoder

end Job

end JobChain
