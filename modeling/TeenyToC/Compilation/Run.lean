import TeenyToC.Scanner
import TeenyToC.Compilation

/-! A run reads a program through a window of two tokens, the current one and the one ahead of it.
A step that accepts the current token reads one more token, so a lexical error is found up to two
tokens early and then comes before the errors of the tokens still in the window. The run ends
because every accepted token leaves either fewer characters or a window nearer to the end of the
text. What it does is kept as a list of events, in order. -/

namespace TeenyToC

inductive Event where
  | scanned (result : Except LexError Token)
  | statement (kind : Kind) (line : Nat)
  | finished (variableCount labelCount jumpCount : Nat)

structure Window where
  current : Token
  ahead : Token
  cursor : Cursor
  deriving DecidableEq, Repr

namespace Window

/-- Reads the first two tokens. -/
def prime (cur : Cursor) : Except LexError Window × List Event :=
  match cur.next with
  | (.error e, _) => (.error e, [.scanned (.error e)])
  | (.ok t, cur) =>
    match cur.next with
    | (.error e, _) => (.error e, [.scanned (.ok t), .scanned (.error e)])
    | (.ok ahead, cur) => (.ok ⟨t, ahead, cur⟩, [.scanned (.ok t), .scanned (.ok ahead)])

def weight (t : Token) : Nat := if t.kind = .eof then 0 else 1

/-- The characters and tokens not yet accepted. -/
def size (w : Window) : Nat := w.cursor.rest.length + weight w.current + weight w.ahead

theorem next_size_le {cur rest : Cursor} {t : Token} (h : cur.next = (.ok t, rest)) :
    rest.rest.length + weight t ≤ cur.rest.length := by
  by_cases ht : t.kind = .eof
  · have hle := Cursor.next_length_le cur
    rw [h] at hle
    simpa [weight, ht] using hle
  · have hlt := Cursor.next_length_lt (by rw [h]) ht
    rw [h] at hlt
    simp only [weight, ht, if_false]
    exact hlt

theorem size_lt {w : Window} {rest : Cursor} {t : Token} (hc : w.current.kind ≠ .eof)
    (h : w.cursor.next = (.ok t, rest)) : size ⟨w.ahead, t, rest⟩ < w.size := by
  have hle := next_size_le h
  simp only [size, weight, hc, if_false] at hle ⊢
  omega

/-- Compiles from the window on. -/
def run (s : Compilation) (w : Window) : Except CompileError Compilation × List Event :=
  if hc : w.current.kind = .eof then
    match s.finish w.current with
    | .error e => (.error (.parse e), [])
    | .ok s => (.ok s, [.finished s.declared.length s.labels.length s.jumps.length])
  else
    let begun := if s.begins w.current then [.statement w.current.kind w.current.line] else []
    match s.step w.current with
    | .error e => (.error (.parse e), begun)
    | .ok s =>
      match h : w.cursor.next with
      | (.error e, _) => (.error (.lex e), begun ++ [.scanned (.error e)])
      | (.ok t, rest) =>
        have := size_lt hc h
        let (result, events) := run s ⟨w.ahead, t, rest⟩
        (result, begun ++ .scanned (.ok t) :: events)
termination_by w.size

end Window

/-- A whole run over the characters before a cursor. -/
def Cursor.compile (cur : Cursor) : Except CompileError CSource × List Event :=
  match Window.prime cur with
  | (.error e, events) => (.error (.lex e), events)
  | (.ok w, events) =>
    let (result, more) := w.run .start
    (result.map (·.code), events ++ more)

def compile (source : String) : Except CompileError CSource :=
  (Cursor.start source).compile.1

end TeenyToC
