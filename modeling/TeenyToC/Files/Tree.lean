import TeenyToC.Files.Storage

/-! A tree of files in memory. Places in it are rows of names from the root, each a directory or a
file with its bytes, and one of them is the working directory, where paths that do not start with
a slash begin. A walk goes through directories only: it looks a name up in the directory it stands
in, stays at an empty part or a dot, and goes up at two dots. -/

namespace TeenyToC

abbrev Location := List String

inductive Entry where
  | dir
  | file (bytes : ByteArray)

def Entry.isDir : Entry → Bool
  | dir => true
  | file _ => false

structure FileTree where
  entries : List (Location × Entry)
  working : Location

namespace FileTree

/-- The root is always a directory. -/
def get? (t : FileTree) (place : Location) : Option Entry :=
  if place = [] then some .dir else t.entries.lookup place

def insert (t : FileTree) (place : Location) (e : Entry) : FileTree :=
  { t with entries := (place, e) :: t.entries.filter (·.1 ≠ place) }

/-- An empty directory to work in. -/
def empty (working : Location) : FileTree := ⟨[(working, .dir)], working⟩

theorem get?_insert_self (t : FileTree) {place : Location} (e : Entry) (h : place ≠ []) :
    (t.insert place e).get? place = some e := by
  simp [get?, insert, h]

theorem get?_insert_of_ne (t : FileTree) {place other : Location} (e : Entry)
    (h : other ≠ place) :
    (t.insert place e).get? other = t.get? other := by
  have hfilter (es : List (Location × Entry)) :
      (es.filter (·.1 ≠ place)).lookup other = es.lookup other := by
    induction es with
    | nil => rfl
    | cons x xs ih =>
      obtain ⟨place', e'⟩ := x
      by_cases hx : place' = place
      · subst hx
        have hother : (other == place') = false := by simpa using h
        rw [List.filter_cons_of_neg (by simp), List.lookup_cons, hother, ih]
      · rw [List.filter_cons_of_pos (by simpa using hx), List.lookup_cons, List.lookup_cons, ih]
  have hne : (other == place) = false := by simpa using h
  simp only [get?, insert, List.lookup_cons, hne, hfilter]

def nameLimit : Nat := 255

def pathLimit : Nat := 4096

/-- What is refused before any directory is looked into. -/
def checkPath (path : String) : Except FileError Unit :=
  if path.contains '\x00' then .error .nulInName
  else if path = "" then .error .notFound
  else if pathLimit ≤ path.utf8ByteSize then .error .nameTooLong
  else .ok ()

def checkDir (t : FileTree) (place : Location) : Except FileError Unit :=
  match t.get? place with
  | some .dir => .ok ()
  | some (.file _) => .error .notDirectory
  | none => .error .notFound

/-- One part of a path, from a place that must be a directory. -/
def enter (t : FileTree) (place : Location) (part : String) : Except FileError Location := do
  t.checkDir place
  if part = "" ∨ part = "." then return place
  else if part = ".." then return place.dropLast
  else if nameLimit < part.utf8ByteSize then throw .nameTooLong
  else if (t.get? (place ++ [part])).isNone then throw .notFound
  else return place ++ [part]

def walk (t : FileTree) (place : Location) (parts : List String) : Except FileError Location :=
  parts.foldlM t.enter place

/-- Where a path starts. -/
def origin (t : FileTree) (path : String) : Location :=
  if path.startsWith "/" then [] else t.working

def resolve (t : FileTree) (path : String) : Except FileError Location := do
  checkPath path
  t.walk (t.origin path) (Files.parts path)

/-- Where a path leads that names something to be made: the directory, the last part, which may
also be a dot or two, and whether slashes follow it. -/
structure Target where
  place : Location
  name : String
  slashed : Bool
  deriving DecidableEq, Repr

def Target.isName (x : Target) : Bool := x.name ≠ "" && x.name ≠ "." && x.name ≠ ".."

def Target.location (x : Target) : Location := x.place ++ [x.name]

def target (t : FileTree) (path : String) : Except FileError Target := do
  checkPath path
  let parts := Files.parts path
  let named := (parts.reverse.dropWhile (· = "")).reverse
  let place ← t.walk (t.origin path) named.dropLast
  t.checkDir place
  return ⟨place, named.getLast?.getD "", parts.getLast? = some ""⟩

def read (t : FileTree) (path : String) : Except FileError ByteArray := do
  match t.get? (← t.resolve path) with
  | some (.file bytes) => return bytes
  | some .dir => throw .isDirectory
  | none => throw .notFound

/-- Makes the file or replaces all of it. -/
def write (t : FileTree) (path : String) (bytes : ByteArray) : Except FileError FileTree := do
  let x ← t.target path
  if !x.isName || x.slashed then throw .isDirectory
  else if nameLimit < x.name.utf8ByteSize then throw .nameTooLong
  else if (t.get? x.location).any Entry.isDir then throw .isDirectory
  else return t.insert x.location (.file bytes)

def makeDir (t : FileTree) (path : String) : Except FileError FileTree := do
  let x ← t.target path
  if !x.isName then throw .alreadyExists
  else if nameLimit < x.name.utf8ByteSize then throw .nameTooLong
  else if (t.get? x.location).isSome then throw .alreadyExists
  else return t.insert x.location .dir

def isDir (t : FileTree) (path : String) : Bool :=
  match t.resolve path with
  | .ok place => (t.get? place).any Entry.isDir
  | .error _ => false

/-- A change that leaves the tree as it was when it fails. -/
def commit (change : FileTree → Except FileError FileTree) :
    StateM FileTree (Except FileError Unit) := fun t =>
  match change t with
  | .ok t' => (.ok (), t')
  | .error e => (.error e, t)

instance : Storage (StateM FileTree) where
  read path := fun t => (t.read path, t)
  write path bytes := commit (·.write path bytes)
  makeDir path := commit (·.makeDir path)
  isDir path := fun t => (t.isDir path, t)

/-- Everything below the working directory, by its path from there. -/
def listing (t : FileTree) : List (String × Entry) :=
  t.entries.filterMap fun (place, e) =>
    if t.working.isPrefixOf place && place ≠ t.working then
      some ("/".intercalate (place.drop t.working.length), e)
    else none

end FileTree

end TeenyToC
