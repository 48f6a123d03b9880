import TeenyToC.Toml.Reader

/-! A TOML text as one table. Its lines are taken in order. Pairs go into the table of the last
header, which is put in its place when the next header comes or the text ends. A table that so far
was only implied is taken up by its own header, and so moves behind the tables made before it. -/

namespace TeenyToC.Toml

/-- The tables already in place, and the one being filled with the place it goes to. -/
structure Draft where
  root : Entries
  current : Entries
  path : List String
  isElement : Bool

namespace Draft

def start : Draft := ⟨[], [], [], false⟩

/-- Puts the table being filled in its place. -/
def settle (d : Draft) : Option Entries := do
  match d.path.getLast? with
  | none => some d.current
  | some key =>
    let put (_ : Bool) (es : Entries) : Option (Unit × Entries) :=
      match es.lookup key, d.isElement with
      | some (.tables elements), true =>
        some ((), es.replace key (.tables (elements ++ [d.current])))
      | none, false => some ((), es ++ [(key, .table false false d.current)])
      | _, _ => none
    let (_, root) ← d.root.descend put false d.path.dropLast false
    return root

def header (d : Draft) (path : List String) : Option Draft := do
  let root ← d.settle
  let key ← path.getLast?
  let take (_ : Bool) (es : Entries) : Option (Entries × Entries) :=
    match es.lookup key with
    | none => some ([], es)
    | some (.table true false inner) => some (inner, es.erase key)
    | some _ => none
  let (current, root) ← root.descend take false path.dropLast false
  return ⟨root, current, path, false⟩

def arrayHeader (d : Draft) (path : List String) : Option Draft := do
  let root ← d.settle
  let key ← path.getLast?
  let make (_ : Bool) (es : Entries) : Option (Unit × Entries) :=
    match es.lookup key with
    | none => some ((), es ++ [(key, .tables [])])
    | some (.tables _) => some ((), es)
    | some _ => none
  let (_, root) ← root.descend make false path.dropLast false
  return ⟨root, [], path, true⟩

def add (d : Draft) : Line → Option Draft
  | .pair path v => (d.current.insertPair path v).map fun es => { d with current := es }
  | .header path => d.header path
  | .arrayHeader path => d.arrayHeader path

end Draft

/-- The entries of a whole text, if it is well formed. -/
def parse? (text : String) : Option Entries := do
  let (lines, _) ← Reader.lines text.toList
  (← lines.foldlM Draft.add .start).settle

end TeenyToC.Toml
