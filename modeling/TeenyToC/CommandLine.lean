/-! The command line. Its arguments are first read one by one into items: a source, an option with
its value, a flag, or something that cannot be read, after which nothing else is looked at. The
items are then collected from left to right, and the first that settles the outcome does: a request
for help or for the version, a repeated option or a second source, or an unreadable item. -/

namespace TeenyToC.CommandLine

inductive Item where
  | source (path : String)
  | output (path : String)
  | config (path : String)
  | stdout
  | quiet
  | verbose
  | help
  | version
  | invalid
  deriving DecidableEq, Repr

/-- What an argument holds: some items, and perhaps an option whose value is the next argument. -/
abbrev Reading := List Item × Option (String → Item)

def shortFlag? (c : Char) : Option Item :=
  if c = 'q' then some .quiet
  else if c = 'v' then some .verbose
  else if c = 'h' then some .help
  else if c = 'V' then some .version
  else none

def longFlag? (name : String) : Option Item :=
  if name = "stdout" then some .stdout
  else if name = "quiet" then some .quiet
  else if name = "verbose" then some .verbose
  else if name = "help" then some .help
  else if name = "version" then some .version
  else none

def longOption? (name : String) : Option (String → Item) :=
  if name = "output" then some .output
  else if name = "config" then some .config
  else none

/-- The value that stands in the same argument may follow an equals sign. -/
def attached : List Char → String
  | '=' :: cs => String.ofList cs
  | cs => String.ofList cs

/-- Letters after one dash. What follows the letter of an option is its value. -/
def short : List Char → Reading
  | [] => ([], none)
  | c :: cs =>
    if c = 'o' then if cs = [] then ([], some .output) else ([.output (attached cs)], none)
    else
      match shortFlag? c with
      | some flag => (flag :: (short cs).1, (short cs).2)
      | none => ([.invalid], none)

/-- A name after two dashes, which is written in full. -/
def long (cs : List Char) : Reading :=
  let name := String.ofList (cs.takeWhile (· ≠ '='))
  match longOption? name, longFlag? name, cs.dropWhile (· ≠ '=') with
  | some option, _, [] => ([], some option)
  | some option, _, value => ([option (attached value)], none)
  | none, some flag, [] => ([flag], none)
  | none, _, _ => ([.invalid], none)

def read (arg : String) : Reading :=
  match arg.toList with
  | '-' :: '-' :: cs => long cs
  | '-' :: c :: cs => short (c :: cs)
  | _ => ([.source arg], none)

/-- Whether an argument can be the value of the option before it. -/
def isValue (arg : String) : Bool := arg = "-" || arg.toList.head? ≠ some '-'

/-- Two dashes alone end the options. -/
def items : List String → List Item
  | [] => []
  | arg :: rest =>
    if arg = "--" then rest.map .source
    else
      match read arg, rest with
      | (found, none), rest => found ++ items rest
      | (found, some _), [] => found ++ [.invalid]
      | (found, some option), value :: rest =>
        if isValue value then found ++ option value :: items rest else found ++ [.invalid]

structure Request where
  source : Option String
  output : Option String
  config : Option String
  stdout : Bool
  quiet : Bool
  verbosity : Nat
  deriving DecidableEq, Repr

def Request.empty : Request := ⟨none, none, none, false, false, 0⟩

inductive Action where
  | help
  | version
  | misuse
  | compile (source : String) (r : Request)
  deriving DecidableEq, Repr

/-- Only the verbosity may be asked for again. -/
def collect (r : Request) : List Item → Action
  | [] => (r.source.map fun source => Action.compile source r).getD .misuse
  | .help :: _ => .help
  | .version :: _ => .version
  | .invalid :: _ => .misuse
  | .verbose :: rest => collect { r with verbosity := r.verbosity + 1 } rest
  | .quiet :: rest => if r.quiet then .misuse else collect { r with quiet := true } rest
  | .stdout :: rest => if r.stdout then .misuse else collect { r with stdout := true } rest
  | .source path :: rest =>
    if r.source.isSome then .misuse else collect { r with source := some path } rest
  | .output path :: rest =>
    if r.output.isSome then .misuse else collect { r with output := some path } rest
  | .config path :: rest =>
    if r.config.isSome then .misuse else collect { r with config := some path } rest

def parse (args : List String) : Action := collect .empty (items args)

def helpText : String := "\n".intercalate
  ["Compilateur Teeny → C",
    "",
    "Usage: teeny [OPTIONS] <SOURCE>",
    "",
    "Arguments:",
    "  <SOURCE>  Fichier source .teeny",
    "",
    "Options:",
    "  -o, --output <OUTPUT>  Fichier C produit (défaut: out.c, ou `output` du fichier de config)",
    "      --stdout           Écrire le C sur stdout au lieu d’un fichier",
    "      --config <CONFIG>  Fichier de configuration TOML",
    "  -q, --quiet            Pas de lignes de statut",
    "  -v, --verbose...       Verbosité (répéter pour plus de bruit)",
    "  -h, --help             Print help",
    "  -V, --version          Print version",
    ""]

def versionText : String := "teeny 0.1.0\n"

end TeenyToC.CommandLine
