import TeenyToC.Log
import TeenyToC.Settings

/-! Compiling files. A source file is read, compiled as a whole and only then written, so that
nothing is written when it cannot be read or compiled. Every action returns the log records it
leaves, in order, whether it succeeds or not. -/

namespace TeenyToC

inductive Failure where
  | read (path : String) (cause : FileError)
  | write (path : String) (cause : FileError)
  | compile (e : CompileError)
  | settings (e : SettingsError)
  deriving DecidableEq, Repr

/-- The messages of a failure, each the cause of the one before it. -/
def Failure.chain : Failure → List String
  | read path cause => ["cannot read " ++ path ++ ": " ++ cause.message, cause.message]
  | write path cause => ["cannot write " ++ path ++ ": " ++ cause.message, cause.message]
  | compile e => [e.message, e.cause]
  | settings (.unreadable path cause) =>
    ["cannot read config " ++ path ++ ": " ++ cause.message, cause.message]
  | settings .malformed | settings (.mismatch _) => ["invalid config"]

abbrev Logged (α : Type) := α × List Log.Record

variable {m : Type → Type} [Monad m] [Storage m]

/-- Writes the C text to a file in one go. -/
def CSource.writeFile (c : CSource) (path : String) : m (Logged (Except FileError Unit)) := do
  let written ← Files.writeText path c.text
  return (written, [Log.writeRecord path c.text.utf8ByteSize])

namespace Compiler

def compileText (source : String) : Logged (Except Failure CSource) :=
  let (result, events) := (Cursor.start source).compile
  (result.mapError .compile, Log.ofEvents events)

def compileFile (path : String) : m (Logged (Except Failure CSource)) := do
  match ← Files.readText path with
  | .error e => return (.error (.read path e), [])
  | .ok source =>
    let (result, log) := compileText source
    return (result, Log.readRecord path source.utf8ByteSize :: log)

def writeTo (c : CSource) (path : String) : m (Logged (Except Failure Unit)) := do
  let (written, log) ← c.writeFile path
  return (written.mapError (.write path), log)

/-- Compiles a file and writes the C text where the settings say. -/
def emit (s : Settings) (path : String) : m (Logged (Except Failure String)) := do
  let (compiled, log) ← compileFile path
  match compiled with
  | .error e => return (.error e, log)
  | .ok c =>
    let (written, more) ← writeTo c s.output
    match written with
    | .error e => return (.error e, log ++ more)
    | .ok () => return (.ok s.output, log ++ more ++ [Log.writtenRecord path s.output])

end Compiler

end TeenyToC
