import TeenyToC.Toml.Value

/-! The characters of a TOML text, read into its lines: pairs of a key and a value, and headers. A
reader takes characters from the front and either fails or returns what it read; `many` repeats
one while it takes something. Arrays and inline tables may be nested a fixed number deep, and this
depth, counted down, is what the recursion on values runs on. -/

namespace TeenyToC.Toml

abbrev Reader := StateT (List Char) Option

inductive Line where
  | pair (path : List String) (v : Value)
  | header (path : List String)
  | arrayHeader (path : List String)

namespace Reader

def many {α : Type} (p : Reader α) (cs : List Char) : Option (List α × List Char) :=
  match p cs with
  | none => some ([], cs)
  | some (a, rest) =>
    if rest.length < cs.length then (many p rest).map fun (as, r) => (a :: as, r)
    else some ([], cs)
termination_by cs.length

def optional {α : Type} (p : Reader α) : Reader (Option α) := (some <$> p) <|> pure none

def satisfy (p : Char → Bool) : Reader Char
  | c :: r => if p c then some (c, r) else none
  | [] => none

def char (c : Char) : Reader Unit := discard (satisfy (· = c))

def word (s : String) : Reader Unit := fun cs =>
  if s.toList.isPrefixOf cs then some ((), cs.drop s.length) else none

def peek : Reader Char := fun cs =>
  match cs with
  | c :: _ => some (c, cs)
  | [] => none

def span (p : Char → Bool) : Reader (List Char) := fun cs =>
  some (cs.takeWhile p, cs.dropWhile p)

def atEnd : Reader Unit := fun cs => if cs = [] then some ((), cs) else none

def check (b : Bool) : Reader Unit := if b then pure () else failure

/-! Characters and blanks. -/

def isBlank (c : Char) : Bool := c = ' ' || c = '\t'

/-- A character that may stand for itself in a comment or a string. -/
def isText (c : Char) : Bool :=
  c = '\t' || (0x20 ≤ c.toNat && c.toNat ≤ 0x7e) || 0x80 ≤ c.toNat

def isBareKey (c : Char) : Bool := c.isAlphanum || c = '_' || c = '-'

def isHex (c : Char) : Bool :=
  c.isDigit || ('a' ≤ c && c ≤ 'f') || ('A' ≤ c && c ≤ 'F')

def blanks : Reader Unit := discard (span isBlank)

def newline : Reader Unit := word "\n" <|> word "\r\n"

def comment : Reader Unit := do
  char '#'
  discard (span isText)

def lineEnd : Reader Unit := newline <|> atEnd

def trailing : Reader Unit := do
  blanks
  discard (optional comment)
  lineEnd

/-- Blanks, line ends and comments, which may stand anywhere between the values of an array. -/
def gap : Reader Unit := do
  blanks
  discard (many (do discard (optional comment); newline; blanks))

/-! Strings. -/

def digitValue (c : Char) : Nat :=
  if c.isDigit then c.toNat - '0'.toNat
  else if 'a' ≤ c then c.toNat - 'a'.toNat + 10
  else c.toNat - 'A'.toNat + 10

def valueOf (base : Nat) (digits : List Char) : Nat :=
  digits.foldl (fun n c => base * n + digitValue c) 0

/-- So many hexadecimal digits, which must be a scalar value. -/
def scalar (count : Nat) : Reader Char := fun cs =>
  let digits := cs.take count
  let n := valueOf 16 digits
  if digits.length = count ∧ digits.all isHex then
    if h : n.isValidChar then some (Char.ofNatAux n h, cs.drop count) else none
  else none

/-- What follows a backslash. -/
def escaped : Reader Char := do
  match ← satisfy fun _ => true with
  | 'b' => return '\x08'
  | 't' => return '\t'
  | 'n' => return '\n'
  | 'f' => return '\x0c'
  | 'r' => return '\r'
  | '"' => return '"'
  | '\\' => return '\\'
  | 'u' => scalar 4
  | 'U' => scalar 8
  | _ => failure

def basicChar : Reader Char :=
  satisfy (fun c => isText c && c ≠ '"' && c ≠ '\\') <|> do
    char '\\'
    escaped

def basicString : Reader String := do
  char '"'
  let cs ← many basicChar
  char '"'
  return String.ofList cs

def literalString : Reader String := do
  char '\''
  let cs ← span fun c => isText c && c ≠ '\''
  char '\''
  return String.ofList cs

/-- A quote inside a string of several lines. Three end the string, and of four or five the last
three do. -/
def innerQuote (q : Char) : Reader Char := fun cs =>
  let run := (cs.takeWhile (· = q)).length
  if run = 3 ∨ 5 < run then none else satisfy (· = q) cs

def lineBreak : Reader Char := do
  newline
  return '\n'

/-- A backslash at the end of a line, which drops the blanks and line ends after it. -/
def continuation : Reader Unit := do
  char '\\'
  blanks
  newline
  discard (many (discard (satisfy isBlank) <|> newline))

def basicLines : Reader String := do
  word "\"\"\""
  discard (optional newline)
  let cs ← many ((some <$> (basicChar <|> lineBreak <|> innerQuote '"')) <|>
    (do continuation; return none))
  word "\"\"\""
  return String.ofList (cs.filterMap id)

def literalLines : Reader String := do
  word "'''"
  discard (optional newline)
  let cs ← many (satisfy (fun c => isText c && c ≠ '\'') <|> lineBreak <|> innerQuote '\'')
  word "'''"
  return String.ofList cs

/-! Numbers and dates. -/

/-- Digits, between which an underscore may stand. -/
def digits (p : Char → Bool) : Reader (List Char) := do
  let first ← satisfy p
  let rest ← many (satisfy p <|> (do char '_'; satisfy p))
  return first :: rest

def sign : Reader Bool :=
  (do char '-'; return true) <|> (do char '+'; return false) <|> pure false

/-- A decimal integer has no zero in front. -/
def whole : Reader (List Char) := do
  if (← peek) = '0' then return [← satisfy Char.isDigit]
  else digits Char.isDigit

def exponent : Reader Int := do
  discard (satisfy fun c => c = 'e' || c = 'E')
  let negative ← sign
  let n : Int := valueOf 10 (← digits Char.isDigit)
  return if negative then -n else n

def fraction : Reader (List Char) := do
  char '.'
  digits Char.isDigit

def special : Reader Binary64 := do
  let negative ← sign
  (do word "inf"; return .infinity negative) <|> (do word "nan"; return .nan)

/-- A float has a fraction or an exponent. One that is too large has no value, but for a negative
one, which is infinite. -/
def float : Reader Binary64 := do
  let negative ← sign
  let front ← whole
  let (places, e) ← (do return ([], ← exponent)) <|>
    (do return (← fraction, (← optional exponent).getD 0))
  let x := Binary64.ofDecimal negative (valueOf 10 (front ++ places)) (e - places.length)
  check (x ≠ .infinity false)
  return x

def based (mark : String) (base : Nat) (p : Char → Bool) : Reader Int := do
  word mark
  return valueOf base (← digits p)

def decimal : Reader Int := do
  let negative ← sign
  let n : Int := valueOf 10 (← whole)
  return if negative then -n else n

/-- An integer has 64 bits. -/
def integer : Reader Int := do
  let n ← based "0x" 16 isHex <|> based "0o" 8 (fun c => '0' ≤ c && c ≤ '7') <|>
    based "0b" 2 (fun c => c = '0' || c = '1') <|> decimal
  check (-0x8000000000000000 ≤ n && n ≤ 0x7fffffffffffffff)
  return n

def fixedDigits (count : Nat) : Reader Nat := fun cs =>
  let digits := cs.take count
  if digits.length = count ∧ digits.all Char.isDigit then some (valueOf 10 digits, cs.drop count)
  else none

def daysIn (year month : Nat) : Nat :=
  if month = 2 then if year % 4 = 0 ∧ (year % 100 ≠ 0 ∨ year % 400 = 0) then 29 else 28
  else if month = 4 ∨ month = 6 ∨ month = 9 ∨ month = 11 then 30
  else 31

def date : Reader Unit := do
  let year ← fixedDigits 4
  char '-'
  let month ← fixedDigits 2
  char '-'
  let day ← fixedDigits 2
  check (1 ≤ month && month ≤ 12 && 1 ≤ day && day ≤ daysIn year month)

def hourMinute : Reader Unit := do
  let hour ← fixedDigits 2
  char ':'
  let minute ← fixedDigits 2
  check (hour ≤ 23 && minute ≤ 59)

/-- A minute may have a leap second. -/
def time : Reader Unit := do
  hourMinute
  char ':'
  let second ← fixedDigits 2
  check (second ≤ 60)
  discard (optional (do char '.'; discard (satisfy Char.isDigit); span Char.isDigit))

def offset : Reader Unit :=
  discard (satisfy fun c => c = 'Z' || c = 'z') <|> do
    discard (satisfy fun c => c = '+' || c = '-')
    hourMinute

def datetime : Reader Unit :=
  (do
    date
    discard (optional (do
      discard (satisfy fun c => c = 'T' || c = 't' || c = ' ')
      time
      discard (optional offset)))) <|> time

/-! Keys, values and lines. -/

def simpleKey : Reader String :=
  basicString <|> literalString <|> do
    let cs ← span isBareKey
    check (cs ≠ [])
    return String.ofList cs

def depthLimit : Nat := 80

/-- Keys between dots, with blanks around each. -/
def key : Reader (List String) := do
  let part : Reader String := do
    blanks
    let k ← simpleKey
    blanks
    return k
  let first ← part
  let rest ← many (do char '.'; part)
  check (rest.length + 1 < depthLimit)
  return first :: rest

def array (item : Reader Value) : Reader Value := do
  char '['
  gap
  match ← optional item with
  | none =>
    char ']'
    return .array []
  | some first =>
    gap
    let rest ← many (do
      char ','
      gap
      let v ← item
      gap
      return v)
    discard (optional (do char ','; gap))
    char ']'
    return .array (first :: rest)

def pairWith (item : Reader Value) : Reader (List String × Value) := do
  let path ← key
  char '='
  blanks
  let v ← item
  return (path, v)

def inline (item : Reader Value) : Reader Value := do
  char '\x7b'
  blanks
  match ← optional (pairWith item) with
  | none =>
    char '\x7d'
    return .inline []
  | some first =>
    blanks
    let rest ← many (do
      char ','
      let pair ← pairWith item
      blanks
      return pair)
    char '\x7d'
    check (consistent (first :: rest))
    return .inline (first :: rest)

/-- A value that holds no others. -/
def simple : Reader Value := do
  match ← peek with
  | '"' => .string <$> (basicLines <|> basicString)
  | '\'' => .string <$> (literalLines <|> literalString)
  | 't' => do word "true"; return .boolean true
  | 'f' => do word "false"; return .boolean false
  | _ =>
    (do datetime; return .datetime) <|> (.float <$> (float <|> special)) <|> (.integer <$> integer)

def value : Nat → Reader Value
  | 0 => simple
  | depth + 1 => do
    match ← peek with
    | '[' => array (value depth)
    | '\x7b' => inline (value depth)
    | _ => simple

def header : Reader Line := do
  char '['
  (do
    char '['
    let path ← key
    word "]]"
    return .arrayHeader path) <|> (do
    let path ← key
    char ']'
    return .header path)

/-- A line, which may hold nothing but blanks and a comment. -/
def line : Reader (Option Line) := do
  blanks
  let content ← optional (header <|> (do
    let (path, v) ← pairWith (value (depthLimit - 1))
    return .pair path v))
  trailing
  return content

/-- All lines of a text, before which a byte order mark may stand. -/
def lines : Reader (List Line) := do
  discard (optional (char '\ufeff'))
  let ls ← many line
  blanks
  atEnd
  return ls.filterMap id

end Reader

end TeenyToC.Toml
