import JobChain.Error
import JobChain.Formula.Reader
import JobChain.Json.Decode

/-!
# Criteria

A criterion picks elements of a graph. It travels as JSON text among the options
of a stage, so it holds no code, only its kind and what the kind needs, or the
source of a formula.
-/

namespace JobChain

inductive Criterion where
  | constant (value : Bool)
  | hasLabel (label : String)
  | hasProperty (key : String)
  | propertyEquals (key : String) (value : Json)
  | propertyCompare (key : String) (comparison : Comparison) (value : Json)
  | scripted (source : String)
  deriving DecidableEq, Repr

namespace Criterion

/-! ## Evaluation -/

inductive Compiled where
  | plain (criterion : Criterion)
  | formula (read : Formula)
  deriving DecidableEq, Repr

def compile : Criterion → Except CriterionError Compiled
  | .scripted source =>
      match Formula.ofText? source with
      | some formula => .ok (.formula formula)
      | none => .error (.badFormula source)
  | criterion => .ok (.plain criterion)

def property? (element : Json) (key : String) : Option Json :=
  (element.field? "properties").bind fun properties =>
    Element.field? properties key

def Compiled.holds (compiled : Compiled) (element : Json) : Bool :=
  match compiled with
  | .formula read => read.holds element
  | .plain (.constant value) => value
  | .plain (.hasLabel label) =>
      (element.field? "label").bind Json.toText? = some label
  | .plain (.hasProperty key) => (property? element key).isSome
  | .plain (.propertyEquals key value) =>
      (property? element key).any fun found => Comparison.eq.holds found value
  | .plain (.propertyCompare key comparison value) =>
      (property? element key).any fun found => comparison.holds found value
  | .plain (.scripted _) => false

/-! ## As text -/

def toJson : Criterion → Json
  | .constant value =>
      .ofFields [("kind", .string "constant"), ("value", .bool value)]
  | .hasLabel label =>
      .ofFields [("kind", .string "has_label"), ("label", .string label)]
  | .hasProperty key =>
      .ofFields [("kind", .string "has_property"), ("key", .string key)]
  | .propertyEquals key value =>
      .ofFields [("kind", .string "property_equals"), ("key", .string key),
        ("value", value)]
  | .propertyCompare key comparison value =>
      .ofFields [("kind", .string "property_compare"), ("key", .string key),
        ("op", symbolOf comparison), ("value", value)]
  | .scripted source =>
      .ofFields [("kind", .string "scripted"), ("source", .string source)]
where
  symbolOf (comparison : Comparison) : Json :=
    match Comparison.symbols.find? fun entry => entry.2 = comparison with
    | some (symbol, _) => .string symbol
    | none => .null

def encode (criterion : Criterion) : String := criterion.toJson.text

inductive Kind where
  | constant
  | hasLabel
  | hasProperty
  | propertyEquals
  | propertyCompare
  | scripted
  deriving DecidableEq, Repr

def Kind.names : List (String × Kind) :=
  [("constant", .constant), ("has_label", .hasLabel),
    ("has_property", .hasProperty), ("property_equals", .propertyEquals),
    ("property_compare", .propertyCompare),
    ("scripted", .scripted)]

/-- A comparison by its symbol. The fields beside the kind are read as values
first, and of these an empty object is as good as null beside a symbol that is a
key. -/
def comparisonDecoder : Decoder Comparison :=
  Decoder.oneOfBeside Decoder.isNullOrEmptyObject Comparison.symbols

def Kind.fields : Kind → Fields Criterion
  | .constant => Criterion.constant <$> .required "value" Decoder.bool
  | .hasLabel => Criterion.hasLabel <$> .required "label" Decoder.text
  | .hasProperty => Criterion.hasProperty <$> .required "key" Decoder.text
  | .propertyEquals =>
      Criterion.propertyEquals <$> .required "key" Decoder.text <*>
        .required "value" Decoder.json
  | .propertyCompare =>
      Criterion.propertyCompare <$> .required "key" Decoder.text
        <*> .required "op" comparisonDecoder
        <*> .required "value" Decoder.json
  | .scripted => Criterion.scripted <$> .required "source" Decoder.text

open Document (Fault)

def Kind.decoder : Decoder Kind :=
  Decoder.text.filterMap fun name => Kind.names.lookup name

/-- Takes the kind out of the fields of an object; the others are read as JSON
values first. -/
def takeKind (room : Nat) : Option Kind → List (Option String × Document) →
    Except Fault (Option Kind)
  | kind?, [] => .ok kind?
  | _, (none, _) :: _ => .error .malformed
  | kind?, (some key, document) :: rest => do
      if key = "kind" then
        if kind?.isSome then .error .misshapen
        else takeKind room (some (← Kind.decoder room document)) rest
      else
        let _ ← document.value room
        takeKind room kind? rest

def decoder : Decoder Criterion
  | 0, .object _ _ | 0, .array _ _ => .error .malformed
  | room + 1, .object fields closed => do
      let kind? ← takeKind room none fields
      if closed then
        match kind? with
        | none => .error .misshapen
        | some kind =>
            let others := fields.filter fun field => field.1 ≠ some "kind"
            kind.fields.decode (room + 1) (.object others true)
      else .error .malformed
  | _ + 1, .array [] closed =>
      .error (if closed then .misshapen else .malformed)
  | room + 1, .array (first :: rest) closed => do
      let kind ← Kind.decoder room first
      let _ ← Document.values room rest
      if closed then kind.fields.decode (room + 1) (.array rest true)
      else .error .malformed
  | _, document => .error (Decoder.mismatch document)

def decode (encoded : String) : Except CriterionError Criterion :=
  (decoder.ofText encoded).mapError fun _ => .unreadable

end Criterion

end JobChain
