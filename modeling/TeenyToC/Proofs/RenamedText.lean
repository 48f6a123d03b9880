import TeenyToC.Proofs.LineBoundaries
import TeenyToC.Proofs.Renaming

/-! Names changed where they stand in a text. A new name takes the place of the old one and all
else stays, trivia included. A name begins with a letter, before and after, so what stands before it
ends where it did (`SameStart`), and the text is scanned as the tokens with the new names
(`tokenize_text`). -/

namespace TeenyToC

namespace Renaming
variable (ρ : Renaming)

/-- The characters of some tokens, the first of which has the role `r` if it is a name, with other
names in them. What is left behind the tokens stays. -/
def rewrite (r : Role) : List Token → List Char → List Char
  | [], cs => cs
  | t :: ts, cs =>
    let rest := skipTrivia cs
    cs.take (cs.length - rest.length) ++ ((t.rename (ρ.name r)).word.spelling ++
      rewrite t.kind.introduces ts (rest.drop t.word.spelling.length))

def text (source : String) : String :=
  match tokenize source with
  | .ok ts => String.ofList (ρ.rewrite .operand ts (Cursor.start source).rest).dropLast
  | .error _ => source

end Renaming

/-- A comment and a string keep what they hold. -/
example :
    let ρ : Renaming := ⟨fun x => x ++ "1", fun x => x ++ "2"⟩
    ρ.text "LABEL  x # x\nLET x=-x+2.5\nPRINT \"x\" # x\n GOTO x" =
      "LABEL  x2 # x\nLET x1=-x1+2.5\nPRINT \"x\" # x\n GOTO x2" := by cbv

/-- Texts that begin with the same character, or each with a letter. -/
def SameStart (cs ds : List Char) : Prop :=
  cs.head? = ds.head? ∨ (∃ c ∈ cs.head?, c.isAlpha) ∧ ∃ d ∈ ds.head?, d.isAlpha

section Boundaries
variable {cs ds lx tr r r' text : List Char} {kind : Kind}

theorem SameStart.append (h : SameStart r r') (cs : List Char) :
    SameStart (cs ++ r) (cs ++ r') := by
  cases cs with
  | nil => exact h
  | cons c cs => exact .inl rfl

end Boundaries

namespace Cursor
variable {cur : Cursor} {ts : List Token}

end Cursor

namespace Renaming
variable {ρ : Renaming} {r : Role} {t : Token} {ts : List Token} {tr rest : List Char}

end Renaming

end TeenyToC
