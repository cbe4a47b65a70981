/-!
# Commands

What the command line of a client asks for. A command does one thing with one
operand, the file of a chain or the id of one.
-/

namespace JobChain

inductive Verb where
  | submit
  | status
  | results
  | plan
  | run
  deriving DecidableEq, Repr

namespace Verb

def names : List (String × Verb) :=
  [("submit", .submit), ("status", .status), ("results", .results),
    ("plan", .plan), ("run", .run)]

def name : Verb → String
  | .submit => "submit"
  | .status => "status"
  | .results => "results"
  | .plan => "plan"
  | .run => "run"

def about : Verb → String
  | .submit => "Envía una cadena (JSON) al master"
  | .status => "Consulta el estado de una cadena y sus jobs"
  | .results => "Lista los archivos de salida de una cadena"
  | .plan => "Compila localmente y muestra los jobs físicos resultantes"
  | .run => "Compila y corre la cadena con el motor local"

def takesFile : Verb → Bool
  | .submit | .plan | .run => true
  | .status | .results => false

def operandName (verb : Verb) : String :=
  if verb.takesFile then "CADENA_JSON" else "CHAIN_ID"

end Verb

structure Command where
  verb : Verb
  operand : String
  deriving DecidableEq, Repr

/-! ## Help -/

inductive HelpTopic where
  | all
  | one (verb : Verb)
  | help
  deriving DecidableEq, Repr

namespace HelpTopic

def helpAbout : String :=
  "Print this message or the help of the given subcommand(s)"

/-- A row of a table whose first column is as wide as the longest name of a
verb. -/
def row (name about : String) : String :=
  "  " ++ name ++ String.ofList (List.replicate (9 - name.length) ' ') ++ about

def optionLines : List String := ["", "Options:", "  -h, --help  Print help"]

def lines : HelpTopic → List String
  | .all =>
      ["CLI para compilar, correr y consultar cadenas de etapas", "",
        "Usage: client <COMMAND>", "", "Commands:"]
      ++ (Verb.names.map fun (name, verb) => row name verb.about)
      ++ [row "help" helpAbout] ++ optionLines
  | .one verb =>
      let operand := "<" ++ verb.operandName ++ ">"
      [verb.about, "", "Usage: client " ++ verb.name ++ " " ++ operand, "",
        "Arguments:", "  " ++ operand ++ "  "] ++ optionLines
  | .help =>
      [helpAbout, "", "Usage: client help [COMMAND]...", "", "Arguments:",
        "  [COMMAND]...  Print help for the subcommand(s)"]

end HelpTopic

/-! ## Command lines -/

inductive CommandLine where
  | command (command : Command)
  | help (topic : HelpTopic)
  | misused
  deriving DecidableEq, Repr

/-- What a word is where options may stand. -/
inductive WordKind where
  | plain
  | help
  | separator
  | unknown
  deriving DecidableEq, Repr

def WordKind.ofWord (word : String) : WordKind :=
  match word.toList with
  | ['-', '-'] => .separator
  | ['-', '-', 'h', 'e', 'l', 'p'] => .help
  | '-' :: 'h' :: _ => .help
  | '-' :: _ :: _ => .unknown
  | _ => .plain

namespace CommandLine

/-- Reads the words behind a verb, which have to hold one operand. Behind a
separator every word is plain. -/
def readOperand (verb : Verb) (separated : Bool) (operand? : Option String) :
    List String → CommandLine
  | [] =>
      match operand? with
      | some operand => .command { verb, operand }
      | none => .misused
  | word :: rest =>
      match if separated then .plain else WordKind.ofWord word with
      | .plain =>
          if operand?.isSome || (verb.takesFile && word.isEmpty) then .misused
          else readOperand verb separated (some word) rest
      | .help => .help (.one verb)
      | .separator => readOperand verb true operand? rest
      | .unknown => .misused

def readTopic : List String → CommandLine
  | [] => .help .all
  | [word] =>
      if word = "help" then .help .help
      else
        match Verb.names.lookup word with
        | some verb => .help (.one verb)
        | none => .misused
  | _ => .misused

def read : List String → CommandLine
  | [] => .misused
  | word :: rest =>
      match WordKind.ofWord word with
      | .plain =>
          if word = "help" then readTopic rest
          else
            match Verb.names.lookup word with
            | some verb => readOperand verb false none rest
            | none => .misused
      | .help => .help .all
      | .separator | .unknown => .misused

end CommandLine

end JobChain
