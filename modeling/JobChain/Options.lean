import JobChain.Json.Decode
import JobChain.Text.Blank
import JobChain.Text.Decimal

/-!
# Options

Settings are texts under names. A job carries the options of all its stages in
one map: the own options of the stage at step `n` stand under their names
followed by `-n`, and `Options.view` gives back what the stage at a step sees.
-/

namespace JobChain

abbrev Options := SortedMap String String

namespace Options

/-! ## Reading and setting -/

def readBool? (text : String) : Option Bool :=
  if text = "true" then some true else if text = "false" then some false
  else none

def boolText (value : Bool) : String := if value then "true" else "false"

/-- A switch, with blanks around its word allowed; unreadable texts count as not
set. -/
def switch (options : Options) (name : String) (default : Bool) : Bool :=
  ((options.get? name).bind fun text => readBool? (Text.trim text)).getD default

/-- A count, with blanks around its digits allowed; unreadable texts count as
not set. -/
def count (options : Options) (name : String) (default : Nat) : Nat :=
  ((options.get? name).bind fun text =>
    Text.readNat? (Text.trim text)).getD default

def setSwitch (options : Options) (name : String) (value : Bool) : Options :=
  options.insert name (boolText value)

def setIfAbsent (options : Options) (name value : String) : Options :=
  if options.contains name then options else options.insert name value

def merge (options other : Options) : Options := options.insertAll other.toList

/-! ## Options of one stage -/

def scopedName (name : String) (step : Nat) : String :=
  name ++ "-" ++ Text.natText step

def splitLastDash? (chars : List Char) : Option (List Char × List Char) :=
  match chars with
  | [] => none
  | c :: rest =>
      match splitLastDash? rest with
      | some (before, behind) => some (c :: before, behind)
      | none => if c = '-' then some ([], rest) else none

/-- The name and the step of an option that belongs to one stage: behind its
last dash stand digits alone, and they write a step below `2 ^ 64`. -/
def splitScope? (name : String) : Option (String × Nat) := do
  let (before, behind) ← splitLastDash? name.toList
  let step ← (Text.readDigits? behind).filter fun n => n < 0x10000000000000000
  some (String.ofList before, step)

def mergeScoped (options other : Options) (step : Nat) : Options :=
  options.insertAll (other.toList.map fun entry => (scopedName entry.1 step,
    entry.2))

def shared (options : Options) : Options :=
  options.filter fun name _ => (splitScope? name).isNone

def ownOf (options : Options) (step : Nat) : List (String × String) :=
  options.toList.filterMap fun entry =>
    match splitScope? entry.1 with
    | some (name, n) => if n = step then some (name, entry.2) else none
    | none => none

/-- What the stage at a step sees: the options of no stage, overlaid by its
own. -/
def view (options : Options) (step : Nat) : Options :=
  options.shared.insertAll (options.ownOf step)

/-! ## As JSON -/

def toJson (options : Options) : Json := Json.ofMap .string options

def decoder : Decoder Options := Decoder.sortedMap Decoder.text

/-! ## Names of options -/

def trackPaths : String := "stagechain.path-enabled"

def package : String := "stagechain.job.package"

def reduceTasks : String := "mapreduce.job.reduces"

def compress : String := "mapreduce.map.output.compress"

def compressCodec : String := "mapreduce.map.output.compress.codec"

end Options

end JobChain
