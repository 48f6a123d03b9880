import TeenyToC.CommandLine
import TeenyToC.Compiler

/-! One run of the tool, from its arguments to what it leaves on the two output streams and what
its exit code is. Settings come from a file if one is named, and the command line then has the last
word. Status lines and log records go to the error stream in the order in which they arise, and
the messages of a failure are kept apart from them. -/

namespace TeenyToC.Tool

open CommandLine (Request)

structure Outcome where
  exit : Nat
  stdout : String
  stderr : String
  report : List String
  deriving DecidableEq, Repr

def limit (verbosity : Nat) : Log.Level :=
  match verbosity with
  | 0 => .warn
  | 1 => .info
  | 2 => .debug
  | _ => .trace

def shown (verbosity : Nat) (log : List Log.Record) : String :=
  String.join ((log.filter (·.within (limit verbosity))).map Log.Record.text)

/-- A line that tells how far the run has come. -/
def status (s : Settings) (line : String) : String := if s.quiet then "" else line ++ "\n"

def override (r : Request) (s : Settings) : Settings :=
  ⟨r.output.getD s.output, s.quiet || r.quiet⟩

def failed (stderr : String) (f : Failure) : Outcome := ⟨1, "", stderr, f.chain⟩

variable {m : Type → Type} [Monad m] [Storage m]

def resolve (r : Request) : m (Except SettingsError Settings) := do
  match r.config with
  | none => return .ok (override r .initial)
  | some path => return (← Settings.ofFile path).map (override r)

def compile (source : String) (r : Request) (s : Settings) : m Outcome := do
  let started := status s "Teeny-to-C compiler"
  if r.stdout then
    let (compiled, log) ← Compiler.compileFile source
    let stderr := started ++ shown r.verbosity log
    match compiled with
    | .error f => return failed stderr f
    | .ok c => return ⟨0, c.text, stderr ++ status s "Compiling completed: <stdout>", []⟩
  else
    let (written, log) ← Compiler.emit s source
    let stderr := started ++ shown r.verbosity log
    match written with
    | .error f => return failed stderr f
    | .ok path => return ⟨0, "", stderr ++ status s ("Compiling completed: " ++ path), []⟩

def run (args : List String) : m Outcome := do
  match CommandLine.parse args with
  | .help => return ⟨0, CommandLine.helpText, "", []⟩
  | .version => return ⟨0, CommandLine.versionText, "", []⟩
  | .misuse => return ⟨2, "", "", []⟩
  | .compile source r =>
    match ← resolve r with
    | .error e => return failed "" (.settings e)
    | .ok s => compile source r s

end TeenyToC.Tool
