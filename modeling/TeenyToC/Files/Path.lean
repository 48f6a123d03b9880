/-! Paths as text. A path is a row of parts between slashes. An empty part and a single dot name
nothing, so that the parent of a path is what is left of the last part that does name something,
less the parts before it that do not. -/

namespace TeenyToC.Files

/-- The parts between slashes, of which there is always one more than there are slashes. -/
def split (cs : List Char) : List (List Char) :=
  cs.foldr (fun c row => if c = '/' then [] :: row else row.modifyHead (c :: ·)) [[]]

def join (row : List (List Char)) : List Char := ['/'].intercalate row

theorem length_split (cs : List Char) : (split cs).length = cs.count '/' + 1 := by
  induction cs with
  | nil => rfl
  | cons c cs ih =>
    by_cases h : c = '/'
    · simpa [split, h] using ih
    · simpa [split, h] using ih

def parts (path : String) : List String := (split path.toList).map String.ofList

def isFiller (part : List Char) : Bool := part = [] || part = ['.']

/-- The paths to a row of parts and to the parts above it, from the inside out. The row is given
backwards. -/
def ancestors : List (List Char) → List String
  | [] => []
  | part :: outer =>
    if isFiller part then ancestors outer
    else String.ofList (join (part :: outer).reverse) :: ancestors outer

/-- The directories that a path lies in, from the innermost on. -/
def parents (path : String) : List String := (ancestors (split path.toList).reverse).tail

example : parents "a//b/./c/" = ["a//b", "a"] ∧ parents "out.c" = [] := by decide +kernel
example : parents "n/../x" = ["n/..", "n"] ∧ parents "g/" = [] := by decide +kernel

end TeenyToC.Files
