import JobChain.RecordFormat

/-!
# Datasets

Where a chain reads its records and where it leaves its files.
-/

namespace JobChain

structure Dataset where
  input : Path
  output : Path
  inputFormat : RecordFormat := .jsonLines
  outputFormat : RecordFormat := .jsonLines
  sideFormat : RecordFormat := .csv
  deriving DecidableEq, Repr

namespace Path

def toJson (path : Path) : Json := .string path.text

def decoder : Decoder Path := Decoder.text.filterMap fun text => some ⟨text⟩

/-- The path taken from another directory, unless it is absolute. -/
def rebase (base path : Path) : Path :=
  if path.isAbsolute then path else base.join path

end Path

namespace Dataset

def jobDirectory (ordinal : Nat) : String := "job-" ++ Text.natText ordinal

def jobLocation (dataset : Dataset) (ordinal : Nat) : Path :=
  dataset.output.child (jobDirectory ordinal)

def rebase (base : Path) (dataset : Dataset) : Dataset :=
  { dataset with input := base.rebase dataset.input, output := base.rebase dataset.output }

def toJson (dataset : Dataset) : Json :=
  .ofFields
    [("input", dataset.input.toJson), ("output", dataset.output.toJson),
      ("input_format", dataset.inputFormat.toJson),
      ("output_format", dataset.outputFormat.toJson),
      ("side_effect_format", dataset.sideFormat.toJson)]

def decoder : Decoder Dataset :=
  Fields.decode <| Dataset.mk
    <$> .required "input" Path.decoder
    <*> .required "output" Path.decoder
    <*> .optional "input_format" RecordFormat.decoder .jsonLines
    <*> .optional "output_format" RecordFormat.decoder .jsonLines
    <*> .optional "side_effect_format" RecordFormat.decoder .csv

end Dataset

end JobChain
