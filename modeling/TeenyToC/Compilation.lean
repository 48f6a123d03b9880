import TeenyToC.CSource
import TeenyToC.Diagnostic

/-! A compilation in progress. The grammar needs no more than the token at hand:

    program    := nl* statement*
    statement  := PRINT (STRING | expression) nl+
                | IF comparison THEN nl+ statement* ENDIF nl+
                | WHILE comparison REPEAT nl+ statement* ENDWHILE nl+
                | LABEL IDENT nl+ | GOTO IDENT nl+ | LET IDENT = expression nl+ | INPUT IDENT nl+
    comparison := expression (cmp expression)+
    expression := [sign] operand ((+ | - | * | /) [sign] operand)*

So the state is a phase, the place inside a statement, with the stack of open blocks, and `step`
takes one token from a state to the next and writes the C text of what it completes. Expressions
have no brackets, and are written as they are read; blanks around an operator and none after a
sign keep two signs apart. -/

namespace TeenyToC

/-- Where an expression stands. A condition is complete once two expressions have been compared. -/
inductive Place where
  | print
  | assign
  | guard (b : Block) (compared : Bool)
  deriving DecidableEq, Repr

/-- What is awaited: the start of a statement, what is printed, an operand with or without its
sign, an operator or the end of the expression, a name, the `=` of an assignment, the end of the
line. A label is registered once the token after it is at hand. -/
inductive Phase where
  | statement
  | printed
  | signed (p : Place)
  | operand (p : Place)
  | operator (p : Place)
  | labelName
  | gotoName
  | letName
  | inputName
  | labelled (name : Token)
  | equals
  | lineEnd
  deriving DecidableEq, Repr

/-- The lists grow at the front: the innermost block, and the newest name or jump, come first. -/
structure Compilation where
  phase : Phase
  blocks : List Block
  declared : List String
  labels : List String
  jumps : List Token
  code : CSource
  deriving DecidableEq, Repr

def Block.opening : Block → String
  | .cond => "if("
  | .loop => "while("

namespace Compilation

def start : Compilation where
  phase := .statement
  blocks := []
  declared := []
  labels := []
  jumps := []
  code := (CSource.empty.writeHeaderLine "#include <stdio.h>").writeHeaderLine "int main(void)\x7b"

def fail (t : Token) (fault : ParseFault) : Except ParseError Compilation :=
  .error ⟨t.line, fault⟩

def write (s : Compilation) (code : String) : Compilation := { s with code := s.code.write code }

def writeLine (s : Compilation) (code : String) : Compilation :=
  { s with code := s.code.writeLine code }

def await (s : Compilation) (phase : Phase) : Compilation := { s with phase := phase }

/-- A variable is declared in the header where its name first appears as a target. -/
def declare (s : Compilation) (name : String) : Compilation :=
  if name ∈ s.declared then s
  else { s with
    declared := name :: s.declared
    code := s.code.writeHeaderLine ("float " ++ name ++ ";") }

/-- Takes the token if it has the kind that is wanted. -/
def expect (t : Token) (wanted : Kind) (s : Compilation) : Except ParseError Compilation :=
  if t.kind = wanted then .ok s else fail t (.expected wanted t.kind)

/-- Whether the token closes the innermost block. -/
def closes (s : Compilation) (t : Token) : Bool :=
  match s.blocks with
  | [] => false
  | b :: _ => t.kind = .keyword (.close b)

/-- A token where a statement may start. -/
def begin (s : Compilation) (t : Token) : Except ParseError Compilation :=
  if s.closes t then .ok ({ s with phase := .lineEnd, blocks := s.blocks.tail }.writeLine "\x7d")
  else
    match t.kind with
    | .newline => .ok s
    | .keyword .print => .ok (s.await .printed)
    | .keyword (.head b) => .ok ((s.write b.opening).await (.signed (.guard b false)))
    | .keyword .label => .ok (s.await .labelName)
    | .keyword .goto => .ok (s.await .gotoName)
    | .keyword .assign => .ok (s.await .letName)
    | .keyword .input => .ok (s.await .inputName)
    | kind => fail t (.invalidStatement t.text kind)

/-- A number, or a variable that has been declared. -/
def operand (s : Compilation) (p : Place) (t : Token) : Except ParseError Compilation :=
  match t.kind with
  | .number => .ok ((s.write t.text).await (.operator p))
  | .ident =>
    if t.text ∈ s.declared then .ok ((s.write t.text).await (.operator p))
    else fail t (.undeclaredVariable t.text)
  | kind => fail t (.unexpectedOperand t.text kind)

def signed (s : Compilation) (p : Place) (t : Token) : Except ParseError Compilation :=
  match t.kind with
  | .additive _ => .ok ((s.write t.text).await (.operand p))
  | _ => s.operand p t

/-- A string is printed as it is, and an expression with two places after the point. -/
def printed (s : Compilation) (t : Token) : Except ParseError Compilation :=
  if t.kind = .string then .ok ((s.writeLine ("printf(\"" ++ t.text ++ "\\n\");")).await .lineEnd)
  else (s.write "printf(\"%.2f\\n\", (float)(").signed .print t

/-- The token after an expression that no operator continues. -/
def leave (s : Compilation) (p : Place) (t : Token) : Except ParseError Compilation :=
  match p with
  | .print => expect t .newline ((s.writeLine "));").await .statement)
  | .assign => expect t .newline ((s.writeLine ";").await .statement)
  | .guard _ false => fail t (.missingComparator t.text)
  | .guard b true =>
    expect t (.keyword (.entry b))
      (({ s with blocks := b :: s.blocks }.writeLine ")\x7b").await .lineEnd)

def operator (s : Compilation) (p : Place) (t : Token) : Except ParseError Compilation :=
  match p, t.kind with
  | _, .additive _ | _, .multiplicative _ =>
    .ok ((s.write (" " ++ t.text ++ " ")).await (.signed p))
  | .guard b _, .comparison _ =>
    .ok ((s.write (" " ++ t.text ++ " ")).await (.signed (.guard b true)))
  | _, _ => s.leave p t

/-- A number that cannot be read is taken as zero and its word is dropped. -/
def input (s : Compilation) (name : String) : Compilation :=
  ((((s.declare name).writeLine ("if(1 != scanf(\"%f\", &" ++ name ++ ")) \x7b")).writeLine
    (name ++ " = 0;")).writeLine "scanf(\"%*s\");").writeLine "\x7d"

/-- Registers a label. The token after it has been read by then, so a lexical error there comes
before a duplicate. -/
def settle (s : Compilation) : Except ParseError Compilation :=
  match s.phase with
  | .labelled name =>
    if name.text ∈ s.labels then fail name (.duplicateLabel name.text)
    else .ok ({ s with phase := .lineEnd, labels := name.text :: s.labels }.writeLine
      (name.text ++ ":;"))
  | _ => .ok s

/-- One token, in a state that has no label to register. -/
def accept (s : Compilation) (t : Token) : Except ParseError Compilation :=
  match s.phase with
  | .statement => s.begin t
  | .printed => s.printed t
  | .signed p => s.signed p t
  | .operand p => s.operand p t
  | .operator p => s.operator p t
  | .labelName => expect t .ident (s.await (.labelled t))
  | .gotoName =>
    expect t .ident (({ s with jumps := t :: s.jumps }.writeLine ("goto " ++ t.text ++ ";")).await
      .lineEnd)
  | .letName => expect t .ident (((s.declare t.text).write (t.text ++ " = ")).await .equals)
  | .equals => expect t .equals (s.await (.signed .assign))
  | .inputName => expect t .ident ((s.input t.text).await .lineEnd)
  | .labelled _ | .lineEnd => expect t .newline (s.await .statement)

def step (s : Compilation) (t : Token) : Except ParseError Compilation := do
  (← s.settle).accept t

/-- Whether the token starts a statement, or is refused as one. -/
def begins (s : Compilation) (t : Token) : Bool :=
  s.phase = .statement && t.kind ≠ .newline && !s.closes t

/-- The first jump whose label is nowhere in the program. -/
def unresolved? (s : Compilation) : Option Token :=
  s.jumps.reverse.find? (·.text ∉ s.labels)

/-- The end of the program. Every block must be closed, and only then is each jump looked up. -/
def finish (s : Compilation) (eof : Token) : Except ParseError Compilation := do
  let s ← s.settle
  match s.phase, s.blocks with
  | .statement, [] =>
    match s.unresolved? with
    | some jump => fail jump (.undeclaredLabel jump.text)
    | none => .ok ((s.writeLine "return 0;").writeLine "\x7d")
  | .statement, b :: _ => fail eof (.expected (.keyword (.close b)) eof.kind)
  | _, _ => s.accept eof

end Compilation

end TeenyToC
