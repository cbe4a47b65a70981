import JobChain.Json.Decode

/-!
# Counters

Sums under a group and a name.
-/

namespace JobChain

abbrev Counters := SortedMap String (SortedMap String Nat)

namespace Counters

def increment (counters : Counters) (group name : String)
    (amount : Nat) : Counters :=
  counters.update group fun names =>
    (names.getD .empty).update name fun value => value.getD 0 + amount

def get (counters : Counters) (group name : String) : Nat :=
  ((counters.get? group).bind fun names => names.get? name).getD 0

/-- Groups, names and sums in increasing order. -/
def sums (counters : Counters) : List (String × String × Nat) :=
  counters.toList.flatMap fun (group, names) =>
    names.toList.map fun (name, value) => (group, name, value)

def merge (counters other : Counters) : Counters :=
  other.sums.foldl
    (fun total (group, name, value) => total.increment group name value)
    counters

def toJson (counters : Counters) : Json :=
  Json.ofMap (Json.ofMap Json.ofNat) counters

def decoder : Decoder Counters :=
  Decoder.sortedMap (Decoder.sortedMap Decoder.nat)

end Counters

end JobChain
