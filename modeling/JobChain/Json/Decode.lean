import JobChain.Json.Document

/-!
# Typed values from JSON

A decoder takes a value of some type from a document. Records are read field by
field in the order of the text, by a reader that keeps what it has seen of each
field (`Fields`); they may also be written as arrays of their fields.
-/

namespace JobChain

open Document (Fault)

/-- Takes a value from a document in which a number of levels may still be
opened. -/
abbrev Decoder (α : Type) := Nat → Document → Except Fault α

namespace Decoder

variable {α β : Type}

def mismatch : Document → Fault
  | .broken | .number none | .string none => .malformed
  | _ => .misshapen

def json : Decoder Json := Document.value

def text : Decoder String
  | _, .string (some text) => .ok text
  | _, document => .error (mismatch document)

def bool : Decoder Bool
  | _, .bool b => .ok b
  | _, document => .error (mismatch document)

def nat : Decoder Nat
  | _, .number (some n) =>
      match n.toNat? with
      | some n => .ok n
      | none => .error .misshapen
  | _, document => .error (mismatch document)

def option (decode : Decoder α) : Decoder (Option α)
  | _, .null => .ok none
  | room, document => some <$> decode room document

def map (f : α → β) (decode : Decoder α) : Decoder β := fun room document =>
  f <$> decode room document

def filterMap (f : α → Option β) (decode : Decoder α) : Decoder β :=
  fun room document => do
  match f (← decode room document) with
  | some value => .ok value
  | none => .error .misshapen

def list (decode : Decoder α) : Decoder (List α)
  | 0, .array _ _ => .error .malformed
  | room + 1, .array items closed => do
      let values ← items.mapM (decode room)
      if closed then .ok values else .error .malformed
  | _, document => .error (mismatch document)

def sortedMap (decode : Decoder α) : Decoder (SortedMap String α)
  | 0, .object _ _ => .error .malformed
  | room + 1, .object fields closed => do
      let entries ← fields.mapM fun
        | (none, _) => .error .malformed
        | (some key, document) => do .ok (key, ← decode room document)
      if closed then .ok (SortedMap.ofList entries) else .error .malformed
  | _, document => .error (mismatch document)

/-- One of several names, as a string or as the only key of an object, beside
which stands a document that counts as empty. -/
def oneOfBeside (isEmpty : Document → Bool) (names : List (String × α)) :
    Decoder α
  | _, .string (some name) => named name
  | 0, .object _ _ => .error .malformed
  | _, .object ((some name, content) :: rest) closed => do
      let value ← named name
      if isEmpty content then
        if closed && rest.isEmpty then .ok value else .error .malformed
      else .error (mismatch content)
  | _, _ => .error .malformed
where
  named (name : String) : Except Fault α :=
    match names.lookup name with
    | some value => .ok value
    | none => .error .misshapen

def isNull : Document → Bool
  | .null => true
  | _ => false

def isNullOrEmptyObject : Document → Bool
  | .null | .object [] true => true
  | _ => false

def oneOf (names : List (String × α)) : Decoder α := oneOfBeside isNull names

end Decoder

/-! ## Records -/

/-- Reads the fields of a record. `take` answers none to a key that is not one
of them; `items` reads them from the front of an array and leaves the rest. -/
structure Fields (α : Type) where
  State : Type
  start : State
  take : Nat → String → Document → State → Option (Except Fault State)
  items : Nat → Bool → List Document → Except Fault (State × List Document)
  finish : State → Except Fault α

namespace Fields

variable {α β : Type}

/-- A field whose absence is settled by `missing`, and by `short` at the end of
an array. -/
def single (name : String) (decode : Decoder α)
    (missing short : Except Fault α) : Fields α where
  State := Option α
  start := none
  take room key document
    | none => if key = name then some (some <$> decode room document) else none
    | some _ => if key = name then some (.error .misshapen) else none
  items room closed
    | document :: rest => do .ok (some (← decode room document), rest)
    | [] => if closed then (fun value => (some value, [])) <$> short
        else .error .malformed
  finish
    | some value => .ok value
    | none => missing

def required (name : String) (decode : Decoder α) : Fields α :=
  single name decode (.error .misshapen) (.error .misshapen)

def optional (name : String) (decode : Decoder α) (default : α) : Fields α :=
  single name decode (.ok default) (.ok default)

/-- A field that may be null, and missing from an object but not from an
array. -/
def nullable (name : String) (decode : Decoder α) : Fields (Option α) :=
  single name decode.option (.ok none) (.error .misshapen)

def map (f : α → β) (fields : Fields α) : Fields β :=
  { fields with finish := fun state => f <$> fields.finish state }

def seq (first : Fields (α → β)) (second : Fields α) : Fields β where
  State := first.State × second.State
  start := (first.start, second.start)
  take room key document state :=
    match first.take room key document state.1 with
    | some result => some ((fun left => (left, state.2)) <$> result)
    | none => (second.take room key document state.2).map fun result =>
        (fun right => (state.1, right)) <$> result
  items room closed documents := do
    let (left, rest) ← first.items room closed documents
    let (right, rest) ← second.items room closed rest
    .ok ((left, right), rest)
  finish state := do
    let f ← first.finish state.1
    let value ← second.finish state.2
    .ok (f value)

instance : Functor Fields := ⟨map, fun value => map fun _ => value⟩

instance : Seq Fields := ⟨fun first second => seq first (second ())⟩

def takeAll (fields : Fields α) (room : Nat) :
    List (Option String × Document) → fields.State → Except Fault fields.State
  | [], state => .ok state
  | (none, _) :: _, _ => .error .malformed
  | (some key, document) :: rest, state =>
      match fields.take room key document state with
      | some result => do takeAll fields room rest (← result)
      | none =>
          if document.isWhole then takeAll fields room rest state
          else .error .malformed

def decode (fields : Fields α) : Decoder α
  | 0, .object _ _ | 0, .array _ _ => .error .malformed
  | room + 1, .object entries closed => do
      let state ← fields.takeAll room entries fields.start
      if closed then fields.finish state else .error .malformed
  | room + 1, .array items closed => do
      let (state, rest) ← fields.items room closed items
      if closed && rest.isEmpty then fields.finish state else .error .malformed
  | _, document => .error (Decoder.mismatch document)

end Fields

/-! ## Parts of written values -/

def nameIn {α : Type} [DecidableEq α] (names : List (String × α))
    (value : α) : Json :=
  match names.find? fun entry => entry.2 = value with
  | some (name, _) => .string name
  | none => .null

def optionalField {α : Type} (name : String) (encode : α → Json) :
    Option α → List (String × Json)
  | some value => [(name, encode value)]
  | none => []

/-! ## Whole texts and values -/

namespace Decoder

variable {α : Type}

def ofCharsStart (decode : Decoder α) (chars : List Char) : Except Fault α :=
  decode Document.maxDepth (Document.ofChars chars).1

def ofText (decode : Decoder α) (text : String) : Except Fault α := do
  let (document, rest) := Document.ofChars text.toList
  let value ← decode Document.maxDepth document
  match rest with
  | some rest => if (Document.skipSpace rest).isEmpty then .ok value else .error .malformed
  | none => .error .malformed

def ofJson (decode : Decoder α) (value : Json) : Except Fault α :=
  decode Document.maxDepth (Document.ofJson value)

end Decoder

def Json.ofText? (text : String) : Option Json :=
  (Decoder.json.ofText text).toOption

end JobChain
