import TeenyToC.Diagnostic

/-! The scanner. A cursor stands before the characters not yet read, on a line; the text read is
the program followed by one newline, so that its last statement is always ended. `Cursor.next`
skips blanks and a comment and reads one lexeme, and every call but those at the end of the text
or at a fault leaves fewer characters (`next_length_lt`), on which `tokenize` rests. -/

namespace TeenyToC

def isBlank (c : Char) : Bool := c = ' ' || c = '\t' || c = '\r'

def isControl (c : Char) : Bool := c.toNat < 0x20 || (0x7f ≤ c.toNat && c.toNat ≤ 0x9f)

/-- A string may hold neither a control character nor one that a C format would interpret. -/
def isIllegal (c : Char) : Bool := isControl c || c = '\\' || c = '%'

/-- Blanks, then at most one comment, which runs up to the end of its line. -/
def skipTrivia (cs : List Char) : List Char :=
  match cs.dropWhile isBlank with
  | '#' :: r => r.dropWhile (· ≠ '\n')
  | r => r

/-- The kind of a character that is a lexeme by itself. -/
def Kind.ofChar? (c : Char) : Option Kind :=
  if c = '\n' then some .newline
  else if c = '=' then some .equals
  else if c = '<' then some (.comparison .lt)
  else if c = '>' then some (.comparison .gt)
  else if c = '+' then some (.additive .plus)
  else if c = '-' then some (.additive .minus)
  else if c = '*' then some (.multiplicative .times)
  else if c = '/' then some (.multiplicative .divide)
  else none

/-- The kind of the lexeme of a character and the `=` after it. -/
def Kind.ofCharEquals? (c : Char) : Option Kind :=
  if c = '=' then some (.comparison .eq)
  else if c = '!' then some (.comparison .ne)
  else if c = '<' then some (.comparison .le)
  else if c = '>' then some (.comparison .ge)
  else none

def Kind.ofWord (w : List Char) : Kind :=
  match Keyword.ofSpelling? (String.ofList w) with
  | some k => .keyword k
  | none => .ident

structure Lexeme where
  kind : Kind
  text : List Char
  deriving DecidableEq, Repr

/-- What was read, and what is left to read. After a fault the characters left start with the one
that is wrong. -/
abbrev Scan := Except LexFault Lexeme × List Char

/-- The rest of a string, after its opening quote. -/
def scanString (r : List Char) : Scan :=
  let isPart c := c ≠ '"' && !isIllegal c
  match r.dropWhile isPart with
  | [] => (.error .unterminatedString, [])
  | c :: rest =>
    if c = '"' then (.ok ⟨.string, r.takeWhile isPart⟩, rest)
    else (.error (.illegalStringChar c), c :: rest)

/-- Digits, and if a point follows them more digits. -/
def scanNumber (cs : List Char) : Scan :=
  match cs.dropWhile Char.isDigit with
  | '.' :: r =>
    if r.takeWhile Char.isDigit = [] then (.error .malformedNumber, '.' :: r)
    else (.ok ⟨.number, cs.takeWhile Char.isDigit ++ '.' :: r.takeWhile Char.isDigit⟩,
      r.dropWhile Char.isDigit)
  | r => (.ok ⟨.number, cs.takeWhile Char.isDigit⟩, r)

def scanWord (cs : List Char) : Scan :=
  let word := cs.takeWhile Char.isAlphanum
  (.ok ⟨.ofWord word, word⟩, cs.dropWhile Char.isAlphanum)

/-- An operator or a newline, the longer lexeme if there are two. -/
def scanSymbol (c : Char) (r : List Char) : Scan :=
  match Kind.ofCharEquals? c, r with
  | some k, '=' :: rest => (.ok ⟨k, [c, '=']⟩, rest)
  | _, _ =>
    match Kind.ofChar? c with
    | some k => (.ok ⟨k, [c]⟩, r)
    | none =>
      if c = '!' then (.error (.incompleteNotEqual (r.headD '\n')), c :: r)
      else (.error (.unknownChar c), c :: r)

/-- One lexeme from the first character on; at the end of the text the empty lexeme. -/
def scan : List Char → Scan
  | [] => (.ok ⟨.eof, []⟩, [])
  | c :: r =>
    if c = '"' then scanString r
    else if c.isDigit then scanNumber (c :: r)
    else if c.isAlpha then scanWord (c :: r)
    else scanSymbol c r

structure Cursor where
  rest : List Char
  line : Nat
  deriving DecidableEq, Repr

namespace Cursor

def start (source : String) : Cursor := ⟨source.toList ++ ['\n'], 1⟩

/-- No lexeme but the newline reaches into another line. -/
def next (cur : Cursor) : Except LexError Token × Cursor :=
  match scan (skipTrivia cur.rest) with
  | (.ok x, rest) =>
    (.ok ⟨x.kind, String.ofList x.text, cur.line⟩,
      ⟨rest, if x.kind = .newline then cur.line + 1 else cur.line⟩)
  | (.error fault, rest) => (.error ⟨cur.line, fault⟩, ⟨rest, cur.line⟩)

end Cursor

theorem skipTrivia_length_le (cs : List Char) : (skipTrivia cs).length ≤ cs.length := by
  have hblank := (List.dropWhile_sublist isBlank (l := cs)).length_le
  unfold skipTrivia
  split
  · next r h =>
    have hcomment := (List.dropWhile_sublist (· ≠ '\n') (l := r)).length_le
    rw [h, List.length_cons] at hblank
    omega
  · exact hblank

theorem scanString_length_lt (r : List Char) : (scanString r).2.length < r.length + 1 := by
  have h := (List.dropWhile_sublist (fun c => c ≠ '"' && !isIllegal c) (l := r)).length_le
  simp only [scanString]
  split
  · simp
  · next c rest heq =>
    rw [heq, List.length_cons] at h
    split <;> simp <;> omega

theorem scanNumber_length_lt {c : Char} (hc : c.isDigit) (r : List Char) :
    (scanNumber (c :: r)).2.length < r.length + 1 := by
  have h := (List.dropWhile_sublist Char.isDigit (l := r)).length_le
  have hr : (c :: r).dropWhile Char.isDigit = r.dropWhile Char.isDigit := by simp [hc]
  simp only [scanNumber, hr]
  split
  · next s heq =>
    have hs := (List.dropWhile_sublist Char.isDigit (l := s)).length_le
    rw [heq, List.length_cons] at h
    split <;> simp <;> omega
  · exact Nat.lt_succ_of_le h

theorem scanWord_length_lt {c : Char} (hc : c.isAlpha) (r : List Char) :
    (scanWord (c :: r)).2.length < r.length + 1 := by
  have h := (List.dropWhile_sublist Char.isAlphanum (l := r)).length_le
  have hc' : c.isAlphanum := by simp [Char.isAlphanum, hc]
  simp only [scanWord, List.dropWhile_cons, hc', if_true]
  omega

theorem scanSymbol_length_lt {c : Char} {r : List Char} {x : Lexeme}
    (h : (scanSymbol c r).1 = .ok x) : (scanSymbol c r).2.length < r.length + 1 := by
  revert h
  unfold scanSymbol
  split
  · simp only [List.length_cons]
    omega
  · split
    · simp
    · split <;> simp

theorem scanSymbol_length_le (c : Char) (r : List Char) :
    (scanSymbol c r).2.length ≤ (c :: r).length := by
  unfold scanSymbol
  split
  · simp only [List.length_cons]
    omega
  · split
    · simp
    · split <;> simp

theorem scan_length_le (cs : List Char) : (scan cs).2.length ≤ cs.length := by
  cases cs with
  | nil => simp [scan]
  | cons c r =>
    unfold scan
    dsimp only
    split
    · exact Nat.le_of_lt (scanString_length_lt r)
    · split
      · next hd => exact Nat.le_of_lt (scanNumber_length_lt hd r)
      · split
        · next ha => exact Nat.le_of_lt (scanWord_length_lt ha r)
        · exact scanSymbol_length_le c r

/-- A lexeme takes a character, but for the empty one at the end of the text. -/
theorem scan_length_lt {c : Char} {r : List Char} {x : Lexeme} (h : (scan (c :: r)).1 = .ok x) :
    (scan (c :: r)).2.length < r.length + 1 := by
  unfold scan at h ⊢
  dsimp only at h ⊢
  split
  · exact scanString_length_lt r
  · next hq =>
    rw [if_neg hq] at h
    split
    · next hd => exact scanNumber_length_lt hd r
    · next hd =>
      rw [if_neg hd] at h
      split
      · next ha => exact scanWord_length_lt ha r
      · next ha => exact scanSymbol_length_lt (by rwa [if_neg ha] at h)

namespace Cursor

theorem next_length_lt {cur : Cursor} {t : Token} (h : (cur.next).1 = .ok t)
    (hne : t.kind ≠ .eof) : (cur.next).2.rest.length < cur.rest.length := by
  have htrivia := skipTrivia_length_le cur.rest
  unfold next at h ⊢
  generalize skipTrivia cur.rest = cs at h htrivia
  cases cs with
  | nil =>
    simp only [scan] at h
    cases h
    exact absurd rfl hne
  | cons c r =>
    rcases hs : scan (c :: r) with ⟨_ | x, rest⟩
    · simp [hs] at h
    · have hlt := scan_length_lt (c := c) (r := r) (by rw [hs])
      simp only [hs, List.length_cons] at hlt htrivia ⊢
      omega

theorem next_length_le (cur : Cursor) : (cur.next).2.rest.length ≤ cur.rest.length := by
  have h := Nat.le_trans (scan_length_le (skipTrivia cur.rest)) (skipTrivia_length_le cur.rest)
  unfold next
  split <;> next heq => simpa [heq] using h

/-- The tokens up to the end of the text or the first fault, the one at the end included. -/
def drain (cur : Cursor) : List Token × Option LexError :=
  match h : cur.next with
  | (.error e, _) => ([], some e)
  | (.ok t, rest) =>
    if hne : t.kind = .eof then ([t], none)
    else
      have : rest.rest.length < cur.rest.length := by
        have hlt := next_length_lt (by rw [h]) hne
        rwa [h] at hlt
      let (ts, e) := rest.drain
      (t :: ts, e)
termination_by cur.rest.length

/-- The results of so many calls, which go on after a fault and after the end. -/
def steps : Nat → Cursor → List (Except LexError Token)
  | 0, _ => []
  | n + 1, cur => cur.next.1 :: steps n cur.next.2

end Cursor

/-- The tokens of a program, of which the last stands for its end. -/
def tokenize (source : String) : Except LexError (List Token) :=
  match (Cursor.start source).drain with
  | (ts, none) => .ok ts
  | (_, some e) => .error e

end TeenyToC
