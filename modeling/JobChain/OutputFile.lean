import JobChain.Path

/-!
# Output files

The files in the directory of a job: records of the graph, what was learned on
the way, and marks.
-/

namespace JobChain

/-! ## Names -/

def mainOutput : String := "part"

def graphOutput : String := "graph"

def sideOutput : String := "sideeffect"

def successMark : String := "_SUCCESS"

def manifestFile : String := "_manifest.json"

def temporaryDirectory : String := "_temporary"

/-! ## Kinds of files -/

def beginsWith (front text : String) : Bool :=
  front.toList.isPrefixOf text.toList

/-- A file that the next job reads; neither side output nor internal. -/
def isGraphInput (path : Path) : Bool :=
  path.fileName?.any fun name =>
    !(beginsWith sideOutput name || beginsWith "_" name || beginsWith "." name)

def isPrimaryOutput (path : Path) : Bool :=
  path.fileName?.any fun name => beginsWith mainOutput name ||
    beginsWith graphOutput name

end JobChain
