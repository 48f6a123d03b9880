import TeenyToC.Files.Storage
import TeenyToC.Text.Quoted
import TeenyToC.Toml.Document

/-! The settings of a compiler: where the C text goes and whether status lines are left out. They
may come from a TOML text, which may give either, both or none, and nothing else. -/

namespace TeenyToC

structure Settings where
  output : String
  quiet : Bool
  deriving DecidableEq, Repr

/-- How a well formed text fails to be settings. -/
inductive Mismatch where
  | unknownField (key : String)
  | wrongType (found wanted : String)
  deriving DecidableEq, Repr

inductive SettingsError where
  | unreadable (path : String) (cause : FileError)
  | malformed
  | mismatch (m : Mismatch)
  deriving DecidableEq, Repr

def Mismatch.message : Mismatch → String
  | unknownField key => "unknown field `" ++ key ++ "`, expected `output` or `quiet`"
  | wrongType found wanted => "invalid type: " ++ found ++ ", expected " ++ wanted

/-- What a message says is found where something else is expected. -/
def Toml.Node.description : Toml.Node → String
  | .value (.string s) => "string " ++ Text.quote s
  | .value (.integer n) => "integer `" ++ toString n ++ "`"
  | .value (.float x) => "floating point `" ++ x.text ++ "`"
  | .value (.boolean b) => "boolean `" ++ toString b ++ "`"
  | .value (.array _) | .tables _ => "sequence"
  | .value .datetime | .value (.inline _) | .table _ _ _ => "map"

namespace Settings

def initial : Settings := ⟨"out.c", false⟩

def set (s : Settings) (key : String) (n : Toml.Node) : Except Mismatch Settings :=
  if key = "output" then
    match n with
    | .value (.string path) => .ok { s with output := path }
    | _ => .error (.wrongType n.description "a UTF-8 path string")
  else if key = "quiet" then
    match n with
    | .value (.boolean b) => .ok { s with quiet := b }
    | _ => .error (.wrongType n.description "a boolean")
  else .error (.unknownField key)

def ofEntries (es : Toml.Entries) : Except Mismatch Settings :=
  es.foldlM (fun s e => s.set e.1 e.2) initial

def ofText (text : String) : Except SettingsError Settings :=
  match Toml.parse? text with
  | none => .error .malformed
  | some es => (ofEntries es).mapError .mismatch

variable {m : Type → Type} [Monad m] [Storage m]

def ofFile (path : String) : m (Except SettingsError Settings) := do
  match ← Files.readText path with
  | .error e => return .error (.unreadable path e)
  | .ok text => return ofText text

end Settings

end TeenyToC
