import JobChain.Failure
import JobChain.Path
import JobChain.Text.Decimal

/-!
# Errors

What can go wrong, by cause, and the wording of each.
-/

namespace JobChain

/-! ## Files -/

/-- Refusals of a file store. A name that holds the character zero is no name at
all. -/
inductive StoreError where
  | notFound
  | exists
  | notDirectory
  | isDirectory
  | invalid
  | nameTooLong
  | notEmpty
  | noName
  deriving DecidableEq, Repr

def StoreError.code? : StoreError → Option Nat
  | .notFound => some 2
  | .exists => some 17
  | .notDirectory => some 20
  | .isDirectory => some 21
  | .invalid => some 22
  | .nameTooLong => some 36
  | .notEmpty => some 39
  | .noName => none

def StoreError.text (error : StoreError) : String :=
  match error.code? with
  | some code => "<os error " ++ Text.natText code ++ ">"
  | none => "file name contained an unexpected NUL byte"

inductive IoError where
  | store (error : StoreError)
  | notText
  | notJson
  | notCsv
  | badPattern (pattern : String)
  | noInput (location : Path)
  | noValue (file : Path)
  | other (text : String)
  deriving DecidableEq, Repr

def IoError.note : IoError → Note
  | .store error => { text := error.text }
  | .notText => { text := "<utf8>", closed := true }
  | .notJson => { text := "<json>", closed := true }
  | .notCsv => { text := "<csv>", closed := true }
  | .badPattern pattern =>
      { text := "patrón glob inválido '" ++ pattern ++ "': <glob>",
        closed := true }
  | .noInput location => { text := "no existe la entrada " ++ location.text }
  | .noValue file => { text := "registro intermedio sin 'v' en " ++ file.text }
  | .other text => { text }

def IoError.message (error : IoError) : String := error.note.text

def IoError.failure (error : IoError) : Failure := { headline := error.note }

/-! ## Chains -/

/-- Ways in which a stage or a job is badly formed. -/
inductive ShapeError where
  | noMap (stage : String)
  | mapOnlyExtras (stage : String)
  | noReduce (stage : String)
  | noTypes (stage : String)
  | notMapOnly (stage : String)
  | notMapReduce (stage : String)
  | noStages (ordinal : Nat)
  deriving DecidableEq, Repr

def ShapeError.message : ShapeError → String
  | .noMap stage => "la etapa '" ++ stage ++ "' no tiene función de map"
  | .mapOnlyExtras stage =>
      "la etapa map-only '" ++ stage ++ "' declara combine/reduce/comparador"
  | .noReduce stage =>
      "la etapa map-reduce '" ++ stage ++ "' no tiene función de reduce"
  | .noTypes stage =>
      "la etapa map-reduce '" ++ stage ++ "' no declara tipos de clave/valor"
  | .notMapOnly stage =>
      "append_map recibió la etapa map-reduce '" ++ stage ++ "'"
  | .notMapReduce stage =>
      "append_map_reduce recibió la etapa map-only '" ++ stage ++ "'"
  | .noStages ordinal => "el job " ++ Text.natText ordinal ++ " no tiene etapas"

inductive PackageError where
  | noHome
  | notFound
  deriving DecidableEq, Repr

def packageFile : String := "stagechain-job.tar"

def homeVariable : String := "STAGECHAIN_HOME"

def PackageError.message : PackageError → String
  | .noHome =>
      homeVariable ++ " debe estar definida para ubicar " ++ packageFile
  | .notFound => "no se encontró " ++ packageFile

inductive CriterionError where
  | unreadable
  | badFormula (source : String)
  deriving DecidableEq, Repr

def CriterionError.message : CriterionError → String
  | .unreadable => "predicado ilegible: <json>"
  | .badFormula source => "'" ++ source ++ "': <syntax>"

inductive ChainError where
  | compilation (error : ShapeError)
  | package (error : PackageError)
  | submission (index : Nat) (job reason : String)
  | execution (index : Nat) (job reason : String)
  | cleanup (detail : String)
  | fusion (step emitted : Nat)
  | stage (step : Nat) (source : Failure)
  | criterion (error : CriterionError)
  | io (error : IoError)
  deriving DecidableEq, Repr

namespace ChainError

def note : ChainError → Note
  | .compilation error => { text := "error de compilación: " ++ error.message }
  | .package error =>
      { text := "no se pudo localizar el paquete distribuible: " ++
        error.message }
  | .submission index job reason =>
      { text := "no se pudo enviar el job " ++ Text.natText index ++ " (" ++
          job ++ "): " ++ reason }
  | .execution index job reason =>
      { text := "el job " ++ Text.natText index ++ " (" ++ job ++ ") falló: " ++
        reason }
  | .cleanup detail => { text := "error de limpieza: " ++ detail }
  | .fusion step emitted =>
      { text := "la etapa fusionada " ++ Text.natText step ++ " emitió " ++
          Text.natText emitted ++ " registros para una sola entrada" }
  | .stage step source =>
      { text := "la etapa " ++ Text.natText step ++ " falló: " ++ source.headline.text
        closed := source.headline.closed }
  | .criterion error =>
      { text := "error de predicado: " ++ error.message, closed := true }
  | .io error =>
      { text := "IO error: " ++ error.message, closed := error.note.closed }

def message (error : ChainError) : String := error.note.text

/-- The error with its cause below it; the text of a stage's error already holds
that of its cause, which is then told again. -/
def failure (error : ChainError) : Failure :=
  { headline := error.note
    causes := match error with
      | .stage _ source => source.headline :: source.causes
      | .io error => [error.note]
      | _ => [] }

end ChainError

end JobChain
