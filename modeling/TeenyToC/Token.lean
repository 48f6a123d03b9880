/-! The vocabulary of Teeny. A statement with a body is a block, conditional or repeated, and each
block has three keywords: one that heads it, one that enters its body and one that closes it. A
token carries its text, which for a string leaves out the quotes, and the line it starts on. -/

namespace TeenyToC

inductive Block where
  | cond
  | loop
  deriving DecidableEq, Repr

inductive Keyword where
  | label
  | goto
  | print
  | input
  | assign
  | head (b : Block)
  | entry (b : Block)
  | close (b : Block)
  deriving DecidableEq, Repr

/-- Also the sign of an operand. -/
inductive Additive where
  | plus
  | minus
  deriving DecidableEq, Repr

inductive Multiplicative where
  | times
  | divide
  deriving DecidableEq, Repr

inductive Comparison where
  | eq
  | ne
  | lt
  | le
  | gt
  | ge
  deriving DecidableEq, Repr

inductive Kind where
  | eof
  | newline
  | number
  | ident
  | string
  | keyword (k : Keyword)
  | equals
  | additive (op : Additive)
  | multiplicative (op : Multiplicative)
  | comparison (op : Comparison)
  deriving DecidableEq, Repr

inductive Band where
  | sentinel
  | structural
  | literal
  | keyword
  | operator
  deriving DecidableEq, Repr

structure Token where
  kind : Kind
  text : String
  line : Nat
  deriving DecidableEq, Repr

/-- A token wherever it stands. -/
abbrev Word := Kind × String

def Token.word (t : Token) : Word := (t.kind, t.text)

def Keyword.spelling : Keyword → String
  | .label => "LABEL"
  | .goto => "GOTO"
  | .print => "PRINT"
  | .input => "INPUT"
  | .assign => "LET"
  | .head .cond => "IF"
  | .entry .cond => "THEN"
  | .close .cond => "ENDIF"
  | .head .loop => "WHILE"
  | .entry .loop => "REPEAT"
  | .close .loop => "ENDWHILE"

def Keyword.all : List Keyword :=
  [.label, .goto, .print, .input, .assign, .head .cond, .entry .cond, .close .cond,
    .head .loop, .entry .loop, .close .loop]

/-- Keywords are recognised by their exact spelling; every other word is a name. -/
def Keyword.ofSpelling? (text : String) : Option Keyword :=
  Keyword.all.find? (·.spelling = text)

def Additive.symbol : Additive → String
  | .plus => "+"
  | .minus => "-"

def Multiplicative.symbol : Multiplicative → String
  | .times => "*"
  | .divide => "/"

def Comparison.symbol : Comparison → String
  | .eq => "=="
  | .ne => "!="
  | .lt => "<"
  | .le => "<="
  | .gt => ">"
  | .ge => ">="

namespace Kind

def band : Kind → Band
  | eof => .sentinel
  | newline => .structural
  | number | ident | string => .literal
  | keyword _ => .keyword
  | equals | additive _ | multiplicative _ | comparison _ => .operator

def isKeyword (k : Kind) : Bool := k.band = .keyword

def isComparison : Kind → Bool
  | comparison _ => true
  | _ => false

/-- The name that diagnostics show. -/
def name : Kind → String
  | eof => "EOF"
  | newline => "NEWLINE"
  | number => "NUMBER"
  | ident => "IDENT"
  | string => "STRING"
  | keyword k => k.spelling
  | equals => "EQ"
  | additive .plus => "PLUS"
  | additive .minus => "MINUS"
  | multiplicative .times => "ASTERISK"
  | multiplicative .divide => "SLASH"
  | comparison .eq => "EQEQ"
  | comparison .ne => "NOTEQ"
  | comparison .lt => "LT"
  | comparison .le => "LTEQ"
  | comparison .gt => "GT"
  | comparison .ge => "GTEQ"

/-- The name that log lines show. -/
def title : Kind → String
  | eof => "Eof"
  | newline => "Newline"
  | number => "Number"
  | ident => "Ident"
  | string => "String"
  | keyword .label => "Label"
  | keyword .goto => "Goto"
  | keyword .print => "Print"
  | keyword .input => "Input"
  | keyword .assign => "Let"
  | keyword (.head .cond) => "If"
  | keyword (.entry .cond) => "Then"
  | keyword (.close .cond) => "EndIf"
  | keyword (.head .loop) => "While"
  | keyword (.entry .loop) => "Repeat"
  | keyword (.close .loop) => "EndWhile"
  | equals => "Eq"
  | additive .plus => "Plus"
  | additive .minus => "Minus"
  | multiplicative .times => "Asterisk"
  | multiplicative .divide => "Slash"
  | comparison .eq => "EqEq"
  | comparison .ne => "NotEq"
  | comparison .lt => "Lt"
  | comparison .le => "LtEq"
  | comparison .gt => "Gt"
  | comparison .ge => "GtEq"

def all : List Kind :=
  [eof, newline, number, ident, string] ++ Keyword.all.map keyword ++
    [equals, additive .plus, additive .minus, multiplicative .times, multiplicative .divide,
      comparison .eq, comparison .ne, comparison .lt, comparison .le, comparison .gt,
      comparison .ge]

theorem mem_all (k : Kind) : k ∈ all := by
  rcases k with _ | _ | _ | _ | _ | ⟨_ | _ | _ | _ | _ | (_ | _) | (_ | _) | (_ | _)⟩ | _ |
    (_ | _) | (_ | _) | (_ | _ | _ | _ | _ | _) <;> decide

end Kind

theorem Keyword.ofSpelling?_spelling (k : Keyword) : ofSpelling? k.spelling = some k := by
  rcases k with _ | _ | _ | _ | _ | (_ | _) | (_ | _) | (_ | _) <;> decide

theorem Keyword.spelling_of_ofSpelling? {s : String} {k : Keyword} (h : ofSpelling? s = some k) :
    k.spelling = s := by
  simpa using List.find?_some h

end TeenyToC
