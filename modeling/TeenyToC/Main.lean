import TeenyToC.Tool

/-! The program itself: the tool run on the disk. -/

namespace TeenyToC.Disk

/-- The cause of an error number, which some calls report negated. -/
def cause (number : UInt32) (details : String) : FileError :=
  let code := if number < 0x80000000 then number.toNat else (0 - number).toNat
  if code = 2 then .notFound
  else if code = 17 then .alreadyExists
  else if code = 20 then .notDirectory
  else if code = 21 then .isDirectory
  else if code = 36 then .nameTooLong
  else .other (details ++ " (os error " ++ toString code ++ ")")

def ofError : IO.Error → FileError
  | .noFileOrDirectory _ number details => cause number details
  | .alreadyExists _ number details => cause number details
  | .inappropriateType _ number details => cause number details
  | .invalidArgument _ number details => cause number details
  | .permissionDenied _ number details => cause number details
  | .resourceExhausted _ number details => cause number details
  | .otherError number details => cause number details
  | e => .other (toString e)

def attempt {α : Type} (path : String) (action : IO α) : IO (Except FileError α) := do
  if path.contains '\x00' then return .error .nulInName
  try return .ok (← action)
  catch e => return .error (ofError e)

instance : Storage IO where
  read path := attempt path (IO.FS.readBinFile path)
  write path bytes := attempt path (IO.FS.writeBinFile path bytes)
  makeDir path := attempt path (IO.FS.createDir path)
  isDir path := do
    match ← attempt path (IO.FS.realPath path) with
    | .ok place => place.isDir
    | .error _ => return false

def reportLines (report : List String) : List String :=
  (report.zipIdx).map fun (message, depth) => "   " ++ toString depth ++ ": " ++ message

end TeenyToC.Disk

open TeenyToC in
def main (args : List String) : IO UInt32 := do
  let o : Tool.Outcome ← Tool.run args
  IO.print o.stdout
  IO.eprint o.stderr
  unless o.report.isEmpty do
    IO.eprintln "Error:"
    for line in Disk.reportLines o.report do
      IO.eprintln line
  if o.exit = 2 then
    IO.eprint CommandLine.helpText
  return o.exit.toUInt32
