import JobChain.Binary64
import JobChain.SortedMap

/-!
# JSON values

Values as records hold them. A number is an integer of 64 bits, signed or
unsigned, or a finite floating-point number, and the two kinds stay apart: `1`
and `1.0` are different values. Records keep the fields of an object in key
order (`Json.Canonical`).
-/

namespace JobChain

/-! ## Numbers -/

inductive Number where
  | int (value : Int) (inRange : -0x8000000000000000 ≤ value ∧
      value < 0x10000000000000000)
  | float (value : Binary64) (finite : value.isFinite = true)
  deriving DecidableEq, Repr

namespace Number

def toBinary64 : Number → Binary64
  | .int n _ => Binary64.ofInt n
  | .float x _ => x

def toSigned? : Number → Option Int
  | .int n _ => if n < 0x8000000000000000 then some n else none
  | .float _ _ => none

def toNat? : Number → Option Nat
  | .int n _ => n.toNat?
  | .float _ _ => none

end Number

/-! ## Values -/

inductive Json where
  | null
  | bool (value : Bool)
  | number (value : Number)
  | string (value : String)
  | array (items : List Json)
  | object (fields : List (String × Json))
  deriving Repr

namespace Json

instance : Inhabited Json := ⟨.null⟩

mutual

protected def decEq : (x y : Json) → Decidable (x = y)
  | .null, .null => isTrue rfl
  | .bool x, .bool y => decidable_of_iff (x = y) (by simp)
  | .number x, .number y => decidable_of_iff (x = y) (by simp)
  | .string x, .string y => decidable_of_iff (x = y) (by simp)
  | .array x, .array y =>
      match Json.decEqItems x y with
      | isTrue h => isTrue (h ▸ rfl)
      | isFalse h => isFalse (by simpa using h)
  | .object x, .object y =>
      match Json.decEqFields x y with
      | isTrue h => isTrue (h ▸ rfl)
      | isFalse h => isFalse (by simpa using h)
  | .null, .bool _ | .null, .number _ | .null, .string _ | .null,
      .array _ | .null, .object _
  | .bool _, .null | .bool _, .number _ | .bool _, .string _ | .bool _, .array _
  | .bool _, .object _ | .number _, .null | .number _, .bool _ | .number _,
      .string _
  | .number _, .array _ | .number _, .object _ | .string _,
      .null | .string _, .bool _
  | .string _, .number _ | .string _, .array _ | .string _,
      .object _ | .array _, .null
  | .array _, .bool _ | .array _, .number _ | .array _, .string _ | .array _,
      .object _
  | .object _, .null | .object _, .bool _ | .object _, .number _ | .object _,
      .string _
  | .object _, .array _ => isFalse (by simp)

protected def decEqItems : (xs ys : List Json) → Decidable (xs = ys)
  | [], [] => isTrue rfl
  | [], _ :: _ | _ :: _, [] => isFalse (by simp)
  | x :: xs, y :: ys =>
      match Json.decEq x y, Json.decEqItems xs ys with
      | isTrue hx, isTrue hxs => isTrue (hx ▸ hxs ▸ rfl)
      | isFalse h, _ | _, isFalse h => isFalse (by simp [h])

protected def decEqFields : (xs ys : List (String × Json)) → Decidable (xs = ys)
  | [], [] => isTrue rfl
  | [], _ :: _ | _ :: _, [] => isFalse (by simp)
  | (k, x) :: xs, (l, y) :: ys =>
      match decEq k l, Json.decEq x y, Json.decEqFields xs ys with
      | isTrue hk, isTrue hx, isTrue hxs => isTrue (hk ▸ hx ▸ hxs ▸ rfl)
      | isFalse h, _, _ | _, isFalse h, _ | _, _, isFalse h =>
          isFalse (by simp [h])

end

instance : DecidableEq Json := Json.decEq

/-! ## Building values -/

/-- A floating-point number; what is not finite is null. -/
def ofBinary64 (x : Binary64) : Json :=
  if h : x.isFinite = true then .number (.float x h) else .null

/-- An integer; one that no 64 bits hold is the nearest floating-point
number. -/
def ofInt (n : Int) : Json :=
  if h : -0x8000000000000000 ≤ n ∧ n < 0x10000000000000000 then
    .number (.int n h)
  else ofBinary64 (Binary64.ofInt n)

def ofNat (n : Nat) : Json := ofInt n

/-- An object with the fields in the order given, which must have no key
twice. -/
def ofFields (fields : List (String × Json)) : Json := .object fields

def ofOption {α : Type} (encode : α → Json) : Option α → Json
  | some value => encode value
  | none => .null

def ofStrings (texts : List String) : Json := .array (texts.map .string)

def ofMap {α : Type} (encode : α → Json) (map : SortedMap String α) : Json :=
  .object (map.toList.map fun entry => (entry.1, encode entry.2))

/-! ## Looking into values -/

def field? (key : String) : Json → Option Json
  | .object fields => Assoc.lookup key fields
  | _ => none

def at? (value : Json) : List String → Option Json
  | [] => some value
  | key :: rest => (value.field? key).bind fun next => next.at? rest

def setField (target : Json) (key : String) (value : Json) : Json :=
  match target with
  | .object fields => .object (Assoc.insert key value fields)
  | other => other

def toNat? : Json → Option Nat
  | .number n => n.toNat?
  | _ => none

def toSigned? : Json → Option Int
  | .number n => n.toSigned?
  | _ => none

def toBinary64? : Json → Option Binary64
  | .number n => some n.toBinary64
  | _ => none

def toText? : Json → Option String
  | .string text => some text
  | _ => none

def items? : Json → Option (List Json)
  | .array items => some items
  | _ => none

/-! ## Canonical values -/

mutual

/-- Every object lists its fields in strictly increasing key order. -/
def Canonical : Json → Prop
  | .array items => CanonicalItems items
  | .object fields => Assoc.Sorted fields ∧ CanonicalFields fields
  | _ => True

def CanonicalItems : List Json → Prop
  | [] => True
  | item :: rest => item.Canonical ∧ CanonicalItems rest

def CanonicalFields : List (String × Json) → Prop
  | [] => True
  | (_, value) :: rest => value.Canonical ∧ CanonicalFields rest

end

mutual

/-- The value with the fields of every object in key order, the last of a key
kept. -/
def canonical : Json → Json
  | .array items => .array (canonicalItems items)
  | .object fields => .object (canonicalFields [] fields)
  | value => value

def canonicalItems : List Json → List Json
  | [] => []
  | item :: rest => item.canonical :: canonicalItems rest

def canonicalFields (sorted : List (String × Json)) : List (String × Json) →
    List (String × Json)
  | [] => sorted
  | (key, value) :: rest =>
      canonicalFields (Assoc.insert key value.canonical sorted) rest

end

mutual

def depth : Json → Nat
  | .array items => 1 + depthItems items
  | .object fields => 1 + depthFields fields
  | _ => 0

def depthItems : List Json → Nat
  | [] => 0
  | item :: rest => max item.depth (depthItems rest)

def depthFields : List (String × Json) → Nat
  | [] => 0
  | (_, value) :: rest => max value.depth (depthFields rest)

end

end Json

end JobChain
