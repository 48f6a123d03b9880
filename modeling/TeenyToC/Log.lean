import TeenyToC.Compilation.Run

/-! Log records. A run is recorded at three levels of detail: every token read, every statement
begun, and the totals of a program compiled to its end. Reading the end of the text and failing
to read a token leave no record. -/

namespace TeenyToC.Log

inductive Level where
  | error
  | warn
  | info
  | debug
  | trace
  deriving DecidableEq, Repr

structure Record where
  level : Level
  target : String
  message : String
  deriving DecidableEq, Repr

def Level.rank : Level → Nat
  | error => 1
  | warn => 2
  | info => 3
  | debug => 4
  | trace => 5

def Level.name : Level → String
  | error => "ERROR"
  | warn => "WARN"
  | info => "INFO"
  | debug => "DEBUG"
  | trace => "TRACE"

/-- Whether a record is kept when the level asked for is the most detailed one kept. -/
def Record.within (r : Record) (limit : Level) : Bool := r.level.rank ≤ limit.rank

def tokenRecord (t : Token) : Record where
  level := .trace
  target := "teeny_core::lexer"
  message := "token " ++ t.kind.title ++ " " ++ atLine (Text.quote t.text) t.line

def statementRecord (kind : Kind) (line : Nat) : Record where
  level := .debug
  target := "teeny_core::parser"
  message := atLine ("statement " ++ kind.name) line

def finishedRecord (variableCount labelCount jumpCount : Nat) : Record where
  level := .info
  target := "teeny_core::parser"
  message := "parse ok : " ++ toString variableCount ++ " variable(s), " ++ toString labelCount ++
    " label(s), " ++ toString jumpCount ++ " goto"

def readRecord (path : String) (size : Nat) : Record where
  level := .debug
  target := "teeny_core::pipeline"
  message := path ++ ": " ++ toString size ++ " octets lus"

def writeRecord (path : String) (size : Nat) : Record where
  level := .debug
  target := "teeny_core::emitter"
  message := "écriture de " ++ toString size ++ " octets vers " ++ path

def writtenRecord (source output : String) : Record where
  level := .info
  target := "teeny_core::pipeline"
  message := source ++ " -> " ++ output

def ofEvent? : Event → Option Record
  | .scanned (.ok t) => if t.kind = .eof then none else some (tokenRecord t)
  | .scanned (.error _) => none
  | .statement kind line => some (statementRecord kind line)
  | .finished variableCount labelCount jumpCount =>
    some (finishedRecord variableCount labelCount jumpCount)

def ofEvents (events : List Event) : List Record := events.filterMap ofEvent?

def indented (message : String) : String :=
  String.ofList (message.toList.flatMap fun c =>
    if c = '\n' then c :: List.replicate 4 ' ' else [c])

/-- How the terminal shows a record. The lines of a message after its first are set in, to stay
apart from the records around them. -/
def Record.text (r : Record) : String :=
  "[" ++ String.ofList (r.level.name.toList.rightpad 5 ' ') ++ " " ++ r.target ++ "] " ++
    indented r.message ++ "\n"

end TeenyToC.Log
