import JobChain.Element
import JobChain.Json.Order

/-!
# Formulas

Conditions on an element of a graph. A formula has no effect, and a path that
leads nowhere is null.
-/

namespace JobChain

/-! ## Comparisons -/

inductive Comparison where
  | eq
  | ne
  | lt
  | le
  | gt
  | ge
  deriving DecidableEq, Repr

namespace Comparison

def equal (x y : Json) : Bool :=
  match x, y with
  | .number m, .number n => m.toBinary64.eqNumber n.toBinary64
  | x, y => x.same y

def comparable : Json → Json → Bool
  | .number _, .number _ => true
  | .string _, .string _ => true
  | _, _ => false

def holds (comparison : Comparison) (x y : Json) : Bool :=
  match comparison with
  | .eq => equal x y
  | .ne => !equal x y
  | .lt => comparable x y && x.order y = .lt
  | .le => comparable x y && x.order y ≠ .gt
  | .gt => comparable x y && x.order y = .gt
  | .ge => comparable x y && x.order y ≠ .lt

def symbols : List (String × Comparison) :=
  [("==", .eq), ("!=", .ne), ("<=", .le), (">=", .ge), ("<", .lt), (">", .gt)]

end Comparison

/-! ## Formulas -/

inductive Formula where
  | literal (value : Json)
  | path (names : String)
  | not (formula : Formula)
  | and (left right : Formula)
  | or (left right : Formula)
  | compare (left : Formula) (comparison : Comparison) (right : Formula)
  deriving DecidableEq, Repr

namespace Formula

/-- Null, false, zero and what is empty count as false; every object counts as
true. -/
def truthy : Json → Bool
  | .null => false
  | .bool b => b
  | .number n => !n.toBinary64.isZero
  | .string text => text ≠ ""
  | .array items => !items.isEmpty
  | .object _ => true

def eval (element : Json) : Formula → Json
  | .literal value => value
  | .path names => (Element.field? element names).getD .null
  | .not formula => .bool (!truthy (formula.eval element))
  | .and left right =>
      .bool (truthy (left.eval element) && truthy (right.eval element))
  | .or left right =>
      .bool (truthy (left.eval element) || truthy (right.eval element))
  | .compare left comparison right =>
      .bool (comparison.holds (left.eval element) (right.eval element))

def holds (formula : Formula) (element : Json) : Bool :=
  truthy (formula.eval element)

end Formula

end JobChain
