/-!
# SipHash

The keyed hash with one round for each word of the message and three at the end,
under the key of zeros.
-/

namespace JobChain.SipHash

structure State where
  v0 : UInt64
  v1 : UInt64
  v2 : UInt64
  v3 : UInt64
  deriving DecidableEq, Repr

def start : State :=
  ⟨0x736f6d6570736575, 0x646f72616e646f6d, 0x6c7967656e657261,
    0x7465646279746573⟩

def rotate (word : UInt64) (bits : UInt64) : UInt64 :=
  (word <<< bits) ||| (word >>> (64 - bits))

def round (state : State) : State :=
  let v0 := state.v0 + state.v1
  let v1 := rotate state.v1 13 ^^^ v0
  let v0 := rotate v0 32
  let v2 := state.v2 + state.v3
  let v3 := rotate state.v3 16 ^^^ v2
  let v0 := v0 + v3
  let v3 := rotate v3 21 ^^^ v0
  let v2 := v2 + v1
  let v1 := rotate v1 17 ^^^ v2
  let v2 := rotate v2 32
  ⟨v0, v1, v2, v3⟩

def absorb (state : State) (word : UInt64) : State :=
  let mixed := round { state with v3 := state.v3 ^^^ word }
  { mixed with v0 := mixed.v0 ^^^ word }

def word : List UInt8 → UInt64
  | [] => 0
  | byte :: rest => byte.toUInt64 ||| (word rest <<< 8)

/-- Takes eight bytes at a time; the last word ends in the length of the whole
message. -/
def absorbAll (length : Nat) (state : State) : List UInt8 → State
  | a :: b :: c :: d :: e :: f :: g :: h :: rest =>
      absorbAll length (absorb state (word [a, b, c, d, e, f, g, h])) rest
  | rest => absorb state (word rest ||| (UInt64.ofNat length <<< 56))

def finish (state : State) : UInt64 :=
  let state := round (round (round { state with v2 := state.v2 ^^^ 0xff }))
  state.v0 ^^^ state.v1 ^^^ state.v2 ^^^ state.v3

def hash (message : List UInt8) : UInt64 :=
  finish (absorbAll message.length start message)

/-- The hash of a text, which is closed by a byte that no text holds. -/
def ofText (text : String) : UInt64 := hash (text.toUTF8.toList ++ [0xff])

end JobChain.SipHash
