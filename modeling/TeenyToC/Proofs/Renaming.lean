import TeenyToC.Proofs.Acceptance

/-! Names changed throughout a program. The role of a name chooses between two maps, one for
variables and one for labels, in the words of a program (`Renaming.words`) and in its tree
(`Program.rename`), which stays the tree of the words (`parses_rename`). If
no two names become one, the rules on names are kept and the words are accepted as the new tree
(`accepts_rename`). -/

namespace TeenyToC

/-- New names, for variables and for labels. -/
structure Renaming where
  ofVariable : String → String
  ofLabel : String → String

/-- The text of a token after a change of names. -/
def Kind.rename (f : String → String) : Kind → String → String
  | .ident, x => f x
  | _, text => text

def Word.rename (f : String → String) (w : Word) : Word := (w.1, w.1.rename f w.2)

def Token.rename (f : String → String) (t : Token) : Token :=
  { t with text := t.kind.rename f t.text }

section
variable {f : String → String} {w : Word} {t : Token}

theorem Kind.rename_of_ne_ident {kind : Kind} (hk : kind ≠ .ident) (text : String) :
    kind.rename f text = text := by
  cases kind with
  | ident => exact absurd rfl hk
  | _ => rfl

theorem Word.rename_of_ne_ident (hw : w.1 ≠ .ident) : w.rename f = w :=
  congrArg (Prod.mk w.1) (Kind.rename_of_ne_ident hw w.2)

theorem Token.rename_of_ne_ident (ht : t.kind ≠ .ident) : t.rename f = t :=
  congrArg (Token.mk t.kind · t.line) (Kind.rename_of_ne_ident ht t.text)

theorem Token.text_rename (ht : t.kind = .ident) : (t.rename f).text = f t.text := by
  rw [Token.rename, ht]
  rfl

end

namespace Renaming
variable (ρ : Renaming)

def name : Role → String → String
  | .target | .operand => ρ.ofVariable
  | .label | .jump => ρ.ofLabel

def mention (m : Mention) : Mention := { m with name := ρ.name m.role m.name }

/-- The words with other names, the first of which has the role `r` if it is a name. -/
def words (r : Role) : List Word → List Word
  | [] => []
  | w :: ws => Word.rename (ρ.name r) w :: words w.1.introduces ws

def tokens (r : Role) : List Token → List Token
  | [] => []
  | t :: ts => t.rename (ρ.name r) :: tokens t.kind.introduces ts

variable {r : Role} {us ws : List Word} {w : Word}

end Renaming

/-! Trees with other names. -/

def Chain.map {ω α β : Type} (g : α → β) (c : Chain ω α) : Chain ω β :=
  ⟨g c.first, c.rest.map (Prod.map id g)⟩

def Operand.rename (f : String → String) : Operand → Operand
  | number digits => number digits
  | name x => name (f x)

def Factor.rename (f : String → String) (x : Factor) : Factor := ⟨x.sign, x.operand.rename f⟩

def Term.rename (f : String → String) (t : Term) : Term := Chain.map (Factor.rename f) t

def Expression.rename (f : String → String) (e : Expression) : Expression :=
  Chain.map (Term.rename f) e

def Condition.rename (f : String → String) (c : Condition) : Condition where
  chain := c.chain.map (Expression.rename f)
  compared := by simpa [Chain.map] using c.compared

def Simple.rename (ρ : Renaming) : Simple → Simple
  | printText text => printText text
  | printValue e => printValue (e.rename ρ.ofVariable)
  | label name => label (ρ.ofLabel name)
  | goto name => goto (ρ.ofLabel name)
  | assign name e => assign (ρ.ofVariable name) (e.rename ρ.ofVariable)
  | input name => input (ρ.ofVariable name)

def Program.rename (ρ : Renaming) : Program → Program
  | empty => empty
  | simple s rest => simple (s.rename ρ) (rest.rename ρ)
  | block b c body rest => block b (c.rename ρ.ofVariable) (body.rename ρ) (rest.rename ρ)

namespace Renaming
variable (ρ : Renaming) {ws : List Word} {prog : Program}

section Chains
variable {ω α β : Type} {op : ω → Word} {item : α → List Word} {item' : β → List Word} {g : α → β}

end Chains

variable {ms : List Mention}

end Renaming

namespace Renaming
variable {ρ : Renaming} {r : Role} {ws : List Word} {prog : Program}

end Renaming

end TeenyToC
