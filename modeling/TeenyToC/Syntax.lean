import TeenyToC.CSource
import TeenyToC.Token

/-! Programs as trees. A tree says twice what it stands for: `words` are the tokens it is written
with, one newline after each line, and `code` is its C text. Both go by recursion on the tree, and
neither knows of a compilation in progress: a compilation of the words has to arrive at the code.

Operators of one level make a chain, which is read from the left. Signs bind closest, then products
and sums, and a condition compares at least two expressions. -/

namespace TeenyToC

structure Chain (ω α : Type) where
  first : α
  rest : List (ω × α)
  deriving DecidableEq, Repr

inductive Operand where
  | number (digits : String)
  | name (x : String)
  deriving DecidableEq, Repr

structure Factor where
  sign : Option Additive
  operand : Operand
  deriving DecidableEq, Repr

abbrev Term := Chain Multiplicative Factor

abbrev Expression := Chain Additive Term

structure Condition where
  chain : Chain Comparison Expression
  compared : chain.rest ≠ []

/-- A statement of one line. -/
inductive Simple where
  | printText (text : String)
  | printValue (e : Expression)
  | label (name : String)
  | goto (name : String)
  | assign (name : String) (e : Expression)
  | input (name : String)
  deriving DecidableEq, Repr

/-- A program, or the body of a block, by its first statement and those after it. -/
inductive Program where
  | empty
  | simple (s : Simple) (rest : Program)
  | block (b : Block) (c : Condition) (body rest : Program)

namespace Chain

variable {ω α : Type}

def words (op : ω → Word) (item : α → List Word) (c : Chain ω α) : List Word :=
  item c.first ++ c.rest.flatMap fun (o, a) => op o :: item a

/-- Blanks around each operator. -/
def code (op : ω → String) (item : α → String) (c : Chain ω α) : String :=
  c.rest.foldl (fun text (o, a) => text ++ " " ++ op o ++ " " ++ item a) (item c.first)

def items (c : Chain ω α) : List α := c.first :: c.rest.map (·.2)

end Chain

def Additive.word (op : Additive) : Word := (.additive op, op.symbol)

def Multiplicative.word (op : Multiplicative) : Word := (.multiplicative op, op.symbol)

def Comparison.word (op : Comparison) : Word := (.comparison op, op.symbol)

def Keyword.word (k : Keyword) : Word := (.keyword k, k.spelling)

def newlineWord : Word := (.newline, "\n")

def nameWord (name : String) : Word := (.ident, name)

namespace Operand

def word : Operand → Word
  | number digits => (.number, digits)
  | name x => nameWord x

def code : Operand → String
  | number digits => digits
  | name x => x

def reads : Operand → List String
  | number _ => []
  | name x => [x]

end Operand

namespace Factor

def words (f : Factor) : List Word := (f.sign.map Additive.word).toList ++ [f.operand.word]

def code (f : Factor) : String := (f.sign.map Additive.symbol).getD "" ++ f.operand.code

end Factor

def Term.words (t : Term) : List Word := Chain.words Multiplicative.word Factor.words t

def Term.code (t : Term) : String := Chain.code Multiplicative.symbol Factor.code t

namespace Expression

def words (e : Expression) : List Word := Chain.words Additive.word Term.words e

def code (e : Expression) : String := Chain.code Additive.symbol Term.code e

/-- The variables it reads, in order. -/
def reads (e : Expression) : List String :=
  (Chain.items e).flatMap fun t => (Chain.items t).flatMap fun f => f.operand.reads

end Expression

namespace Condition

def words (c : Condition) : List Word := c.chain.words Comparison.word Expression.words

def code (c : Condition) : String := c.chain.code Comparison.symbol Expression.code

end Condition

namespace Simple

def words : Simple → List Word
  | printText text => [Keyword.word .print, (.string, text)]
  | printValue e => Keyword.word .print :: e.words
  | label name => [Keyword.word .label, nameWord name]
  | goto name => [Keyword.word .goto, nameWord name]
  | assign name e => [Keyword.word .assign, nameWord name, (.equals, "=")] ++ e.words
  | input name => [Keyword.word .input, nameWord name]

def code : Simple → String
  | printText text => "printf(\"" ++ text ++ "\\n\");\n"
  | printValue e => "printf(\"%.2f\\n\", (float)(" ++ e.code ++ "));\n"
  | label name => name ++ ":;\n"
  | goto name => "goto " ++ name ++ ";\n"
  | assign name e => name ++ " = " ++ e.code ++ ";\n"
  | input name =>
    "if(1 != scanf(\"%f\", &" ++ name ++ ")) \x7b\n" ++ name ++ " = 0;\n" ++
      "scanf(\"%*s\");\n" ++ "\x7d\n"

/-- The variable it gives a value to. -/
def target? : Simple → Option String
  | assign name _ | input name => some name
  | _ => none

def label? : Simple → Option String
  | label name => some name
  | _ => none

def jump? : Simple → Option String
  | goto name => some name
  | _ => none

end Simple

def Block.code (b : Block) (condition body : String) : String :=
  match b with
  | .cond => "if(" ++ condition ++ ")\x7b\n" ++ body ++ "\x7d\n"
  | .loop => "while(" ++ condition ++ ")\x7b\n" ++ body ++ "\x7d\n"

namespace Program

def words : Program → List Word
  | empty => []
  | simple s rest => s.words ++ newlineWord :: rest.words
  | block b c body rest =>
    Keyword.word (.head b) :: c.words ++ Keyword.word (.entry b) :: newlineWord :: body.words ++
      Keyword.word (.close b) :: newlineWord :: rest.words

def code : Program → String
  | empty => ""
  | simple s rest => s.code ++ rest.code
  | block b c body rest => b.code c.code body.code ++ rest.code

/-- The statements of one line, in order, those of inner blocks included. -/
def simples : Program → List Simple
  | empty => []
  | simple s rest => s :: rest.simples
  | block _ _ body rest => body.simples ++ rest.simples

/-- Each variable that is given a value somewhere, by its first occurrence. -/
def targets (p : Program) : List String := (p.simples.filterMap Simple.target?).eraseDups

def labels (p : Program) : List String := p.simples.filterMap Simple.label?

def jumps (p : Program) : List String := p.simples.filterMap Simple.jump?

/-- The whole C text: every variable is declared before the first statement. -/
def source (p : Program) : CSource where
  header := "#include <stdio.h>\nint main(void)\x7b\n" ++
    String.join (p.targets.map fun x => "float " ++ x ++ ";\n")
  body := p.code ++ "return 0;\n\x7d\n"

end Program

end TeenyToC
