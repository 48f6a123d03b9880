/-! The C text under construction, in two parts that only grow: a header, which ends with the
declarations, and a body, which holds the statements. The whole text is the header and then the
body, so that a variable found deep in the program is still declared before every statement. -/

namespace TeenyToC

structure CSource where
  header : String
  body : String
  deriving DecidableEq, Repr

namespace CSource

def empty : CSource := ⟨"", ""⟩

def write (c : CSource) (code : String) : CSource := { c with body := c.body ++ code }

def writeLine (c : CSource) (code : String) : CSource := c.write (code ++ "\n")

def writeHeader (c : CSource) (code : String) : CSource := { c with header := c.header ++ code }

def writeHeaderLine (c : CSource) (code : String) : CSource := c.writeHeader (code ++ "\n")

def text (c : CSource) : String := c.header ++ c.body

end CSource

end TeenyToC
