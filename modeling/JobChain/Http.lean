import JobChain.Content
import JobChain.Http.MediaType
import JobChain.Json.Decode
import JobChain.Json.Printer
import JobChain.Text.Blank
import JobChain.Text.Decimal

/-!
# Requests and responses

What a service is asked over the network and what it answers.
-/

namespace JobChain

structure HttpRequest where
  method : String
  target : String
  body : Content := .text ""
  contentType : Option String := none
  deriving DecidableEq, Repr

inductive HttpBody where
  | text (text : String)
  | json (value : Json)
  deriving DecidableEq

structure HttpResponse where
  status : Nat
  body : HttpBody := .text ""
  deriving DecidableEq

namespace HttpBody

def toText : HttpBody → String
  | .text words => words
  | .json value => value.text

end HttpBody

namespace HttpResponse

def isSuccess (response : HttpResponse) : Bool := 200 ≤ response.status &&
    response.status < 300

def reasons : List (Nat × String) :=
  [(200, "OK"), (400, "Bad Request"), (404, "Not Found"),
    (405, "Method Not Allowed"), (413, "Payload Too Large"),
    (415, "Unsupported Media Type"), (422, "Unprocessable Entity"),
    (500, "Internal Server Error")]

def statusText (response : HttpResponse) : String :=
  Text.natText response.status ++ " " ++
    (reasons.lookup response.status).getD ""

end HttpResponse

namespace HttpRequest

/-! ## Targets -/

def pathChars (chars : List Char) : List Char :=
  chars.takeWhile fun c => c != '?' && c != '#'

def isSchemeChar (c : Char) : Bool :=
  c.isAlphanum || c = '+' || c = '-' || c = '.'

/-- What is left of a target without a scheme and the host behind it. -/
def dropHost (chars : List Char) : List Char :=
  match chars.dropWhile isSchemeChar with
  | ':' :: '/' :: '/' :: rest =>
      rest.dropWhile fun c => c != '/' && c != '?' && c != '#'
  | _ => chars

def segments (request : HttpRequest) : List String :=
  (Text.splitAt
    (fun c => c = '/') (pathChars (dropHost request.target.toList))).map
    String.ofList

def hexValue? (byte : UInt8) : Option Nat :=
  Document.hexValue? (Char.ofNat byte.toNat)

def unescapeBytes : List UInt8 → List UInt8
  | 37 :: high :: low :: rest =>
      match hexValue? high, hexValue? low with
      | some a, some b => UInt8.ofNat (a * 16 + b) :: unescapeBytes rest
      | _, _ => 37 :: unescapeBytes (high :: low :: rest)
  | byte :: rest => byte :: unescapeBytes rest
  | [] => []

def unescape? (segment : String) : Option String :=
  String.fromUTF8? ⟨(unescapeBytes segment.toUTF8.toList).toArray⟩

/-! ## Addresses -/

def isPathChar (c : Char) : Bool :=
  '!' ≤ c && c ≤ '~' && ['"', '<', '>', '\x60', '{', '}'].all (· != c)

def escapeByte (byte : UInt8) : List Char :=
  let c := Char.ofNat byte.toNat
  if isPathChar c then [c]
  else '%' :: [byte.toNat / 16, byte.toNat % 16].map fun digit =>
    (Json.hexDigit digit).toUpper

def escape (segment : List Char) : List Char :=
  (String.ofList segment).toUTF8.toList.flatMap escapeByte

/-- How many directories a segment of dots leaves, where one stays where it
is. -/
def dots? (segment : List Char) : Option Nat :=
  match segment.map Char.toLower with
  | ['.'] | ['%', '2', 'e'] => some 0
  | ['.', '.'] | ['.', '%', '2', 'e'] | ['%', '2', 'e', '.'] | ['%', '2', 'e',
      '%', '2', 'e'] =>
      some 1
  | _ => none

def resolve (before : List (List Char)) : List (List Char) → List (List Char)
  | [] => before.reverse
  | segment :: rest =>
      match dots? segment with
      | none => resolve (segment :: before) rest
      | some count =>
          let before := before.drop count
          if rest.isEmpty then ([] :: before).reverse else resolve before rest

/-- The target that an address stands for; blanks behind it do not count, nor
does what a query or a fragment adds. -/
def targetOf (address : String) : String :=
  let chars := (address.toList.reverse.dropWhile (· ≤ ' ')).reverse.filter
    fun c => ['\t', '\n', '\r'].all (· != c)
  let segments :=
    resolve [] (Text.splitAt (fun c => c = '/' ||
      c = '\\') (pathChars chars)).tail
  String.ofList (segments.flatMap fun segment => '/' :: escape segment)

def get (address : String) : HttpRequest :=
  { method := "GET", target := targetOf address }

def postJson (address : String) (value : Json) : HttpRequest :=
  { method := "POST", target := targetOf address, body := .text value.text
    contentType := some "application/json" }

/-! ## Bodies -/

def bodyText (headline : String) (status : Nat) : HttpResponse :=
  { status, body := .text headline }

def claimsJson (request : HttpRequest) : Bool :=
  (request.contentType.bind MediaType.ofText?).any MediaType.isJson

def bodyLimit : Nat := 2097152

/-- Takes a value from a JSON body; whatever stands behind the value does not
count. -/
def decodeBody {α : Type} (decoder : Decoder α)
    (request : HttpRequest) : Except HttpResponse α :=
  if !request.claimsJson then
    .error
      (bodyText
        "Expected request with \x60Content-Type: application/json\x60" 415)
  else if bodyLimit < request.body.size then
    .error
      (bodyText "Failed to buffer the request body: length limit exceeded" 413)
  else
    match decoder.ofCharsStart request.body.jsonChars with
    | .ok value => .ok value
    | .error .malformed =>
        .error (bodyText "Failed to parse the request body as JSON" 400)
    | .error .misshapen =>
        .error
          (bodyText
            "Failed to deserialize the JSON body into the target type" 422)

end HttpRequest

end JobChain
