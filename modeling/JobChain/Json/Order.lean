import JobChain.Json.Printer

/-!
# Order and equality of JSON values

Values are ordered by kind, then by content: integers exactly and other numbers
as floating-point ones, strings by code points, arrays item by item, objects by
their text.
-/

namespace JobChain

namespace Number

def order (x y : Number) : Ordering :=
  match x.toSigned?, y.toSigned? with
  | some m, some n => compare m n
  | _, _ => x.toBinary64.totalOrder y.toBinary64

def same : Number → Number → Bool
  | .int m _, .int n _ => m = n
  | .float x _, .float y _ => x.eqNumber y
  | _, _ => false

end Number

namespace Json

def kindRank : Json → Nat
  | .null => 0
  | .bool _ => 1
  | .number _ => 2
  | .string _ => 3
  | .array _ => 4
  | .object _ => 5

mutual

def order : Json → Json → Ordering
  | .bool x, .bool y => compare x y
  | .number x, .number y => x.order y
  | .string x, .string y => compare x y
  | .array xs, .array ys => orderItems xs ys
  | .object xs, .object ys =>
      compare (Json.object xs).text (Json.object ys).text
  | x, y => compare x.kindRank y.kindRank

def orderItems : List Json → List Json → Ordering
  | [], [] => .eq
  | [], _ :: _ => .lt
  | _ :: _, [] => .gt
  | x :: xs, y :: ys => (x.order y).then (orderItems xs ys)

end

mutual

/-- Equality that tells `1` from `1.0` but not one zero from the other. -/
def same : Json → Json → Bool
  | .null, .null => true
  | .bool x, .bool y => x = y
  | .number x, .number y => x.same y
  | .string x, .string y => x = y
  | .array xs, .array ys => sameItems xs ys
  | .object xs, .object ys => sameFields xs ys
  | _, _ => false

def sameItems : List Json → List Json → Bool
  | [], [] => true
  | x :: xs, y :: ys => x.same y && sameItems xs ys
  | _, _ => false

def sameFields : List (String × Json) → List (String × Json) → Bool
  | [], [] => true
  | (k, x) :: xs, (l, y) :: ys => k = l && x.same y && sameFields xs ys
  | _, _ => false

end

end Json

end JobChain
