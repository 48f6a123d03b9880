import TeenyToC.Text.Printable

/-! Quoted text, as diagnostics and log lines show it: the text between two delimiters on one
line of printable characters. NUL, tab, carriage return, newline and the backslash have escapes of
their own, the delimiter is written after a backslash, and every other character that is not
printable or joins the one before it is written by its scalar value in hexadecimal. -/

namespace TeenyToC.Text

def hexEscape (c : Char) : List Char :=
  '\\' :: 'u' :: '\x7b' :: Nat.toDigits 16 c.toNat ++ ['\x7d']

/-- One character between two delimiters. -/
def escape (delimiter c : Char) : List Char :=
  if c = '\x00' then ['\\', '0']
  else if c = '\t' then ['\\', 't']
  else if c = '\r' then ['\\', 'r']
  else if c = '\n' then ['\\', 'n']
  else if c = '\\' ∨ c = delimiter then ['\\', c]
  else if isExtender c || !isPrintable c then hexEscape c
  else [c]

def quoted (delimiter : Char) (cs : List Char) : List Char :=
  delimiter :: cs.flatMap (escape delimiter) ++ [delimiter]

def quoteChar (c : Char) : String := String.ofList (quoted '\'' [c])

def quote (s : String) : String := String.ofList (quoted '"' s.toList)

example : quoteChar '\'' = "'\\''" ∧ quoteChar '"' = "'\"'" := by decide +kernel
example : quote "a\n\"'\u0301" = "\"a\\n\\\"'\\u\x7b301\x7d\"" := by decide +kernel

end TeenyToC.Text
