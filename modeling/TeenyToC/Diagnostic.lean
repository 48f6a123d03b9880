import TeenyToC.Text.Quoted
import TeenyToC.Token

/-! What can be wrong with a program. A fault is a cause, found in the characters or in the tokens,
and an error is a fault with the line it was found on. Its message is one function of the cause,
and a compile error says which of the two stages stopped. -/

namespace TeenyToC

inductive LexFault where
  | illegalStringChar (c : Char)
  | malformedNumber
  | unterminatedString
  | unknownChar (c : Char)
  | incompleteNotEqual (got : Char)
  deriving DecidableEq, Repr

inductive ParseFault where
  | expected (wanted found : Kind)
  | missingComparator (text : String)
  | undeclaredVariable (name : String)
  | duplicateLabel (name : String)
  | undeclaredLabel (name : String)
  | invalidStatement (text : String) (kind : Kind)
  | unexpectedOperand (text : String) (kind : Kind)
  deriving DecidableEq, Repr

structure LexError where
  line : Nat
  fault : LexFault
  deriving DecidableEq, Repr

structure ParseError where
  line : Nat
  fault : ParseFault
  deriving DecidableEq, Repr

inductive CompileError where
  | lex (e : LexError)
  | parse (e : ParseError)
  deriving DecidableEq, Repr

open Text

def LexFault.message : LexFault → String
  | illegalStringChar c => "Illegal character in string: " ++ quoteChar c
  | malformedNumber => "Illegal character in number"
  | unterminatedString => "Unterminated string"
  | unknownChar c => "Unknown token: " ++ c.toString
  | incompleteNotEqual got => "Expected !=, got: " ++ quoteChar got

def ParseFault.message : ParseFault → String
  | expected wanted found => "Expected " ++ wanted.name ++ ", got " ++ found.name
  | missingComparator text => "Expected comparison operator at: " ++ text
  | undeclaredVariable name => "Referencing variable before assignment: " ++ name
  | duplicateLabel name => "Label already exists: " ++ name
  | undeclaredLabel name => "Attempting to GOTO to undeclared label: " ++ name
  | invalidStatement text kind => "Invalid statement at " ++ quote text ++ " (" ++ kind.name ++ ")"
  | unexpectedOperand text kind => "Unexpected token at " ++ quote text ++ " (" ++ kind.name ++ ")"

def atLine (message : String) (line : Nat) : String :=
  message ++ " (line " ++ toString line ++ ")"

def LexError.message (e : LexError) : String := atLine e.fault.message e.line

def ParseError.message (e : ParseError) : String := atLine e.fault.message e.line

namespace CompileError

def line : CompileError → Nat
  | lex e => e.line
  | parse e => e.line

/-- The message of the stage that stopped. -/
def cause : CompileError → String
  | lex e => e.message
  | parse e => e.message

def message (e : CompileError) : String :=
  match e with
  | lex _ => "Lexing error. " ++ e.cause
  | parse _ => "Parsing error. " ++ e.cause

end CompileError

end TeenyToC
