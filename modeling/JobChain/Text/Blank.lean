import JobChain.Text.CodeRange

/-!
# Blanks

The Unicode property White_Space, and what is left of a text without the blanks
around it.
-/

namespace JobChain.Text

def blankRanges : List CodeRange :=
  [
    (0x9, 0xD), (0x20, 0x20), (0x85, 0x85), (0xA0, 0xA0), (0x1680, 0x1680),
    (0x2000, 0x200A), (0x2028, 0x2029), (0x202F, 0x202F), (0x205F, 0x205F),
    (0x3000, 0x3000)
  ]

def isBlank (c : Char) : Bool := inRanges c.toNat blankRanges

def trimChars (chars : List Char) : List Char :=
  ((chars.dropWhile isBlank).reverse.dropWhile isBlank).reverse

def trim (text : String) : String := String.ofList (trimChars text.toList)

def isBlankText (text : String) : Bool := text.toList.all isBlank

/-- Cuts at every character that a test picks, which is dropped. -/
def splitAt {α : Type} (cut : α → Bool) : List α → List (List α)
  | [] => [[]]
  | c :: rest =>
      if cut c then [] :: splitAt cut rest
      else
        match splitAt cut rest with
        | [] => [[c]]
        | piece :: pieces => (c :: piece) :: pieces

def words (text : String) : List String :=
  ((splitAt isBlank text.toList).filter fun word => !word.isEmpty).map
    String.ofList

end JobChain.Text
