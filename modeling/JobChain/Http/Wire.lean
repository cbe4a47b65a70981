import JobChain.Http

/-!
# Requests and responses as they are sent

A message is a first line, lines with a name and a value each, an empty line,
and a body. The connection ends with the body of a response.
-/

namespace JobChain

structure ServerAddress where
  host : String
  number : Nat
  deriving DecidableEq, Repr

namespace ServerAddress

def scheme : String := "http://"

/-- Reads an address such as `http://localhost:8080`, where the number may be
left out. -/
def ofText? (text : String) : Option ServerAddress :=
  if scheme.toList.isPrefixOf text.toList then
    let rest := (text.toList.drop scheme.length).takeWhile (· != '/')
    match Text.splitAt (fun c => c = ':') rest with
    | [host] => some { host := String.ofList host, number := 80 }
    | [host, digits] =>
        (Text.readDigits? digits).map fun number =>
          { host := String.ofList host, number }
    | _ => none
  else none

end ServerAddress

namespace HttpRequest

def lineEnd : String := "\r\n"

def wireBytes (server : ServerAddress) (request : HttpRequest) : List UInt8 :=
  let length := Text.natText request.body.size
  let lines := [request.method ++ " " ++ request.target ++ " HTTP/1.0",
    "Host: " ++ server.host, "Content-Length: " ++ length]
  let lines := lines ++ (request.contentType.map fun kind => "Content-Type: " ++
    kind).toList
  let head := String.join (lines.map fun line => line ++ lineEnd) ++ lineEnd
  head.toUTF8.toList ++ request.body.bytes

end HttpRequest

namespace HttpResponse

def bodyChars : List Char → List Char
  | '\r' :: '\n' :: '\r' :: '\n' :: rest => rest
  | _ :: rest => bodyChars rest
  | [] => []

def ofWireText? (text : String) : Option HttpResponse :=
  match Text.splitAt (fun c => c = ' ') (text.toList.takeWhile (· != '\r')) with
  | _ :: status :: _ =>
      (Text.readDigits? status).map fun status =>
        { status, body := .text (String.ofList (bodyChars text.toList)) }
  | _ => none

end HttpResponse

end JobChain
