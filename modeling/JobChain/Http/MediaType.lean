/-!
# Media types

The name of a format in the header of a request: a kind and a subtype, which may
end in a suffix, and parameters behind semicolons. A machine that reads one
character at a time tells whether the parameters are well formed.
-/

namespace JobChain

structure MediaType where
  kind : List Char
  subtype : List Char
  suffix : Option (List Char) := none
  deriving DecidableEq, Repr

namespace MediaType

def isTokenChar (c : Char) : Bool :=
  c.isAlphanum || "!#$%&'*+-.^_\x60|~".toList.contains c

def isQuotable (c : Char) : Bool := ' ' ≤ c && c ≤ '~'

/-! ## Parameters -/

inductive Place where
  | front
  | name
  | sign
  | value
  | opened
  | quoted
  | closed
  deriving DecidableEq, Repr

namespace Place

def step : Place → Char → Option Place
  | front, c =>
      if c = ' ' then some front else if isTokenChar c then some name else none
  | name, c =>
      if c = '=' then some sign else if isTokenChar c then some name else none
  | sign, c =>
      if c = '"' then some opened
      else if isTokenChar c then some value else none
  | value, c =>
      if c = ';' then some front else if isTokenChar c then some value else none
  | opened, c => if isQuotable c then some quoted else none
  | quoted, c =>
      if c = '"' then some closed
      else if isQuotable c then some quoted else none
  | closed, c =>
      if c = ';' then some front else if c = ' ' then some closed else none

def isEnd : Place → Bool
  | front | sign | value | closed => true
  | name | opened | quoted => false

end Place

def areParameters (chars : List Char) : Bool :=
  (chars.foldlM Place.step .front).any Place.isEnd

/-! ## Reading -/

def cutSuffix (subtype : List Char) : List Char × Option (List Char) :=
  let suffix := (subtype.reverse.takeWhile (· != '+')).reverse
  if suffix.length + 1 < subtype.length then
    (subtype.take (subtype.length - suffix.length - 1), some suffix)
  else (subtype, none)

/-- Reads a media type; letters count as small ones. A subtype may be empty only
at the end. -/
def ofText? (text : String) : Option MediaType :=
  let chars := text.toList.map Char.toLower
  let kind := chars.takeWhile isTokenChar
  match chars.dropWhile isTokenChar with
  | '/' :: rest =>
      let subtype := rest.takeWhile isTokenChar
      let fits := match rest.dropWhile isTokenChar with
        | [] => true
        | c :: rest => c = ';' && !subtype.isEmpty && areParameters rest
      if !kind.isEmpty && fits then
        let (subtype, suffix) := cutSuffix subtype
        some { kind, subtype, suffix }
      else none
  | _ => none

/-- Whether values of the type are JSON: it is JSON itself or a format built on
it. -/
def isJson (type : MediaType) : Bool :=
  type.kind = "application".toList &&
    (type.subtype = "json".toList || type.suffix = some "json".toList)

end MediaType

end JobChain
