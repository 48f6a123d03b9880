import TeenyToC.Files.Path

/-! What a compiler needs of the files around it: to read and write one file, and to make one
directory or see whether it is there. Everything else is built from these, so that it means the
same on a disk and on a tree in memory. -/

namespace TeenyToC

inductive FileError where
  | notFound
  | alreadyExists
  | notDirectory
  | isDirectory
  | nameTooLong
  | notUtf8
  | nulInName
  | other (text : String)
  deriving DecidableEq, Repr

def FileError.message : FileError → String
  | notFound => "No such file or directory (os error 2)"
  | alreadyExists => "File exists (os error 17)"
  | notDirectory => "Not a directory (os error 20)"
  | isDirectory => "Is a directory (os error 21)"
  | nameTooLong => "File name too long (os error 36)"
  | notUtf8 => "stream did not contain valid UTF-8"
  | nulInName => "file name contained an unexpected NUL byte"
  | other text => text

class Storage (m : Type → Type) where
  read : String → m (Except FileError ByteArray)
  write : String → ByteArray → m (Except FileError Unit)
  makeDir : String → m (Except FileError Unit)
  isDir : String → m Bool

namespace Files

variable {m : Type → Type} [Monad m] [Storage m]

def readText (path : String) : m (Except FileError String) := do
  match ← Storage.read path with
  | .error e => return .error e
  | .ok bytes =>
    match String.fromUTF8? bytes with
    | some text => return .ok text
    | none => return .error .notUtf8

/-- Makes a directory, given with those it lies in, from the innermost on. Those outside are made
only where one is missing, and a directory that is there already is no error. -/
def makeDirs : List String → m (Except FileError Unit)
  | [] => return .ok ()
  | path :: outer => do
    match ← Storage.makeDir path with
    | .ok () => return .ok ()
    | .error .notFound =>
      match ← makeDirs outer with
      | .error e => return .error e
      | .ok () =>
        match ← Storage.makeDir path with
        | .ok () => return .ok ()
        | .error e => return if ← Storage.isDir path then .ok () else .error e
    | .error e => return if ← Storage.isDir path then .ok () else .error e

/-- Writes a whole file, once the directories it lies in are there. -/
def writeText (path text : String) : m (Except FileError Unit) := do
  match ← makeDirs (parents path) with
  | .error e => return .error e
  | .ok () => Storage.write path text.toUTF8

end Files

end TeenyToC
