import TeenyToC.Binary64

/-! Values of a TOML text and the tables they stand in. A value is complete where it is written. A
table is not: a header or a dotted key may pass through it and go on filling it, so a table
remembers whether it is so far only implied by the keys below it and whether dotted keys made it.
The entries of a table keep the order they were made in. -/

namespace TeenyToC.Toml

inductive Value where
  | string (s : String)
  | integer (n : Int)
  | float (x : Binary64)
  | boolean (b : Bool)
  | datetime
  | array (items : List Value)
  | inline (pairs : List (List String × Value))

inductive Node where
  | value (v : Value)
  | table (implied dotted : Bool) (entries : List (String × Node))
  | tables (elements : List (List (String × Node)))

abbrev Entries := List (String × Node)

namespace Entries

def replace (es : Entries) (key : String) (n : Node) : Entries :=
  es.map fun e => if e.1 = key then (key, n) else e

def erase (es : Entries) (key : String) : Entries := es.filter (·.1 ≠ key)

/-- Follows a path of keys and changes the table at its end, told whether dotted keys made that
table. A missing table on the way is made, an array of tables is entered at its newest, and a
dotted key passes only through tables that are still implied. -/
def descend {α : Type} (change : Bool → Entries → Option (α × Entries)) (dotted : Bool) :
    List String → Bool → Entries → Option (α × Entries)
  | [], isDotted, es => change isDotted es
  | key :: path, _, es => do
    match es.lookup key with
    | none =>
      let (a, inner) ← descend change dotted path dotted []
      return (a, es ++ [(key, .table true dotted inner)])
    | some (.table implied isDotted inner) =>
      if dotted && !implied then none
      else
        let (a, inner) ← descend change dotted path isDotted inner
        return (a, es.replace key (.table implied isDotted inner))
    | some (.tables elements) =>
      let newest ← elements.getLast?
      let (a, newest) ← descend change dotted path false newest
      return (a, es.replace key (.tables (elements.dropLast ++ [newest])))
    | some (.value _) => none

/-- Adds a pair, whose key may be dotted. A dotted key may only add to a table that dotted keys
made, and no key is given twice. -/
def insertPair (es : Entries) (path : List String) (v : Value) : Option Entries := do
  let key ← path.getLast?
  let add (isDotted : Bool) (es : Entries) : Option (Unit × Entries) :=
    if isDotted == decide (path.length = 1) || (es.lookup key).isSome then none
    else some ((), es ++ [(key, .value v)])
  let (_, es) ← es.descend add true path.dropLast false
  return es

end Entries

/-- Whether the pairs of an inline table make a table. -/
def consistent (pairs : List (List String × Value)) : Bool :=
  (pairs.foldlM (fun (es : Entries) p => es.insertPair p.1 p.2) []).isSome

end TeenyToC.Toml
