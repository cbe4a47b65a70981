/-!
# Ranges of code points

A class of characters is a list of closed ranges of code points in increasing
order.
-/

namespace JobChain.Text

abbrev CodeRange := Nat × Nat

/-- Whether a code point lies in one of the ranges; the search stops at the
first range above it. -/
def inRanges (code : Nat) : List CodeRange → Bool
  | [] => false
  | (first, last) :: rest =>
      if code < first then false
      else if code ≤ last then true
      else inRanges code rest

end JobChain.Text
