import TeenyToC.Proofs.Spelling

/-! The C text is cut into fragments, one for each statement, head of a block or declaration, and
none of them begins another (`Fragment.code_append_inj`). What a fragment is can be told from the
characters after its leading word, and what it holds ends at the first character that its shape has
no place for. -/

namespace TeenyToC

/-- Two texts of one class, each up to a character that is none of it. -/
theorem append_cons_inj {P : Char → Bool} {xs ys r s : List Char} {c d : Char} (hxs : xs.all P)
    (hys : ys.all P) (hc : P c = false) (hd : P d = false) (h : xs ++ c :: r = ys ++ d :: s) :
    xs = ys ∧ c :: r = d :: s := by
  induction xs generalizing ys with
  | nil =>
    cases ys with
    | nil => exact ⟨rfl, h⟩
    | cons y ys =>
      obtain ⟨rfl, -⟩ := List.cons.inj h
      simp [hc] at hys
  | cons x xs ih =>
    simp only [List.all_cons, Bool.and_eq_true] at hxs
    cases ys with
    | nil =>
      obtain ⟨rfl, -⟩ := List.cons.inj h
      simp [hd] at hxs
    | cons y ys =>
      simp only [List.all_cons, Bool.and_eq_true] at hys
      obtain ⟨rfl, htail⟩ := List.cons.inj h
      obtain ⟨rfl, hrest⟩ := ih hxs.2 hys.2 htail
      exact ⟨rfl, hrest⟩

/-- A piece of C text that is written as a whole. A phrase is a declaration or a jump. -/
inductive Fragment where
  | phrase (lead name : List Char)
  | text (cs : List Char)
  | value (formula : List Char)
  | label (name : List Char)
  | assign (name formula : List Char)
  | input (name : List Char)
  | head (b : Block) (formula : List Char)

inductive Shape where
  | phrase
  | text
  | value
  | label
  | assign
  | input
  | head
  | other
  deriving DecidableEq, Repr

def Block.lead : Block → List Char
  | .cond => ['i', 'f']
  | .loop => ['w', 'h', 'i', 'l', 'e']

namespace Shape

/-- What stands between the leading word and what the fragment holds. -/
@[simp] def opening : Shape → List Char
  | phrase => [' ']
  | text => ['(', '"']
  | value => '(' :: '"' :: '%' :: ".2f\\n\", (float)(".toList
  | label | other => []
  | assign => [' ', '=', ' ']
  | input => '(' :: ("1 != scanf".toList ++ '(' :: "\"%f\", &".toList)
  | head => ['(']

/-- The characters that a fragment can hold. -/
def holds : Shape → Char → Bool
  | phrase | input => Char.isAlphanum
  | text => isStringPart
  | value | assign | head => isFormulaChar
  | label | other => fun _ => false

/-- What the characters after a leading word are the rest of. A parenthesis in a condition would be
the one of `scanf`, since expressions have none. -/
def ofTail : List Char → Shape
  | ':' :: _ => label
  | ' ' :: r => if r.head? = some '=' then assign else phrase
  | '(' :: r =>
    if r.head? = some '"' then if r[1]? = some '%' then value else text
    else if '(' ∈ r.takeWhile (· ≠ ')') then input else head
  | _ => other

theorem ofTail_paren (r : List Char) : ofTail ('(' :: r) =
    if r.head? = some '"' then if r[1]? = some '%' then value else text
    else if '(' ∈ r.takeWhile (· ≠ ')') then input else head := rfl

end Shape

namespace Fragment

@[simp] def shape : Fragment → Shape
  | phrase _ _ => .phrase
  | text _ => .text
  | value _ => .value
  | label _ => .label
  | assign _ _ => .assign
  | input _ => .input
  | head _ _ => .head

/-- The word in front. -/
@[simp] def lead : Fragment → List Char
  | phrase lead _ => lead
  | text _ | value _ => ['p', 'r', 'i', 'n', 't', 'f']
  | label name | assign name _ => name
  | input _ => ['i', 'f']
  | head b _ => b.lead

@[simp] def held : Fragment → List Char
  | phrase _ name | input name => name
  | text cs => cs
  | value formula | assign _ formula | head _ formula => formula
  | label _ => []

@[simp] def closing : Fragment → List Char
  | phrase _ _ | assign _ _ => [';', '\n']
  | text _ => ['\\', 'n', '"', ')', ';', '\n']
  | value _ => [')', ')', ';', '\n']
  | label _ => [':', ';', '\n']
  | input name => ')' :: (") \x7b\n".toList ++ name ++ " = 0;\nscanf(\"%*s\");\n\x7d\n".toList)
  | head _ _ => [')', '\x7b', '\n']

/-- What stands after the word in front. -/
def tail (f : Fragment) : List Char := f.shape.opening ++ (f.held ++ f.closing)

def code (f : Fragment) : List Char := f.lead ++ f.tail

/-- The parts of a fragment keep to their classes. -/
def Valid : Fragment → Prop
  | phrase lead name => lead.all Char.isAlphanum ∧ isName name
  | text cs => cs.all isStringPart
  | value formula => formula.all isFormulaChar
  | label name => isName name
  | assign name formula => isName name ∧ formula.all isFormulaChar
  | input name => isName name
  | head _ formula => formula ≠ [] ∧ formula.all isFormulaChar

theorem ne_of_isFormulaChar {c d : Char} (hc : isFormulaChar c) (hd : isFormulaChar d = false) :
    c ≠ d := by
  rintro rfl
  rw [hd] at hc
  cases hc

theorem head?_ne_of_isName {name : List Char} (h : isName name) (r : List Char) :
    (name ++ r).head? ≠ some '=' := by
  cases name with
  | nil => cases h
  | cons c name =>
    simp only [isName, Bool.and_eq_true] at h
    simpa using ne_of_isAlpha h.1 (by decide)

theorem shape_tail {f : Fragment} (hf : f.Valid) (k : List Char) :
    Shape.ofTail (f.tail ++ k) = f.shape := by
  cases f with
  | phrase lead name =>
    have hname := head?_ne_of_isName hf.2 ([';', '\n'] ++ k)
    rw [← List.append_assoc] at hname
    exact if_neg hname
  | text cs =>
    have hcs : (cs ++ '\\' :: 'n' :: '"' :: ')' :: ';' :: '\n' :: k)[0]? ≠ some '%' := by
      cases cs with
      | nil => simp
      | cons c cs =>
        intro h
        obtain rfl : c = '%' := by simpa using h
        simp [Valid, isStringPart, isIllegal] at hf
    simpa [tail, Shape.ofTail_paren] using hcs
  | value formula => rfl
  | label name => rfl
  | assign name formula => rfl
  | input name =>
    have hbefore : ∀ c ∈ "1 != scanf".toList, decide (c ≠ ')') = true := by simp
    have hmem (r : List Char) :
        '(' ∈ ("1 != scanf".toList ++ '(' :: r).takeWhile (· ≠ ')') := by
      rw [List.takeWhile_append_of_pos hbefore]
      simp
    have hhead (r : List Char) : ("1 != scanf".toList ++ r).head? ≠ some '"' := by simp
    have htail : (input name).tail ++ k = '(' :: ("1 != scanf".toList ++ '(' ::
        ("\"%f\", &".toList ++ (name ++ (input name).closing ++ k))) := by
      simp [tail]
    rw [htail, Shape.ofTail_paren, if_neg (hhead _), if_pos (hmem _)]
    rfl
  | head b formula =>
    obtain ⟨hne, hall⟩ := hf
    obtain ⟨c, cs, rfl⟩ := List.exists_cons_of_ne_nil hne
    have hclass {d : Char} (hd : isFormulaChar d = false) : ∀ x ∈ c :: cs, x ≠ d :=
      fun x hx => ne_of_isFormulaChar (List.all_eq_true.mp hall x hx) hd
    have hformula : ∀ x ∈ c :: cs, decide (x ≠ ')') = true := fun x hx =>
      decide_eq_true (hclass (by decide) x hx)
    have hmem : '(' ∉ ((c :: cs) ++ ')' :: '\x7b' :: '\n' :: k).takeWhile (· ≠ ')') := by
      rw [List.takeWhile_append_of_pos hformula]
      intro h
      exact hclass (by decide) '(' (by simpa using h) rfl
    have hhead : c ≠ '"' := hclass (by decide) c (by simp)
    simpa [tail, Shape.ofTail_paren, hhead] using hmem

theorem isAlphanum_of_isName {name : List Char} (h : isName name) : name.all Char.isAlphanum := by
  cases name with
  | nil => cases h
  | cons c name =>
    simp only [isName, Bool.and_eq_true] at h
    simp [Char.isAlphanum, h.1, h.2]

theorem all_lead {f : Fragment} (hf : f.Valid) : f.lead.all Char.isAlphanum := by
  cases f with
  | phrase lead name => exact hf.1
  | label name => exact isAlphanum_of_isName hf
  | assign name formula => exact isAlphanum_of_isName hf.1
  | head b formula => cases b <;> rfl
  | _ => rfl

theorem tail_eq_cons (f : Fragment) :
    ∃ c r, f.tail = c :: r ∧ c.isAlphanum = false ∧ c ≠ '\x7d' := by
  cases f <;> exact ⟨_, _, rfl, by decide, by decide⟩

/-- The leading words are the same, and so is what stands after them. -/
theorem lead_append_inj {f g : Fragment} (hf : f.Valid) (hg : g.Valid) {k l : List Char}
    (h : f.code ++ k = g.code ++ l) : f.lead = g.lead ∧ f.tail ++ k = g.tail ++ l := by
  obtain ⟨c, r, hc, hcn, -⟩ := f.tail_eq_cons
  obtain ⟨d, s, hd, hdn, -⟩ := g.tail_eq_cons
  rw [code, code, List.append_assoc, List.append_assoc, hc, hd] at h
  rw [hc, hd]
  exact append_cons_inj (all_lead hf) (all_lead hg) hcn hdn h

theorem all_held {f : Fragment} (hf : f.Valid) : f.held.all f.shape.holds := by
  cases f with
  | phrase lead name => exact isAlphanum_of_isName hf.2
  | text cs => exact hf
  | value formula => exact hf
  | label name => rfl
  | assign name formula => exact hf.2
  | input name => exact isAlphanum_of_isName hf
  | head b formula => exact hf.2

theorem closing_eq_cons (f : Fragment) : ∃ c r, f.closing = c :: r ∧ f.shape.holds c = false := by
  cases f <;> exact ⟨_, _, rfl, rfl⟩

theorem eq_of_held {f g : Fragment} (hshape : f.shape = g.shape) (hlead : f.lead = g.lead)
    (hheld : f.held = g.held) : f = g := by
  cases f <;> cases g <;> cases hshape
  case head.head b formula b' formula' =>
    obtain rfl : b = b' := by cases b <;> cases b' <;> first | rfl | cases hlead
    exact congrArg (head b) hheld
  all_goals simp_all [lead, held]

/-- No fragment begins another. -/
theorem code_append_inj {f g : Fragment} (hf : f.Valid) (hg : g.Valid) {k l : List Char}
    (h : f.code ++ k = g.code ++ l) : f = g ∧ k = l := by
  obtain ⟨hlead, htail⟩ := lead_append_inj hf hg h
  have hshape : f.shape = g.shape := by
    rw [← shape_tail hf k, ← shape_tail hg l, htail]
  obtain ⟨c, r, hc, hcn⟩ := f.closing_eq_cons
  obtain ⟨d, s, hd, hdn⟩ := g.closing_eq_cons
  have hends : f.held ++ c :: (r ++ k) = g.held ++ d :: (s ++ l) := by
    simp only [tail, hshape, hc, hd, List.append_assoc, List.cons_append] at htail
    exact List.append_cancel_left htail
  rw [← hshape] at hdn
  obtain ⟨hheld, -⟩ := append_cons_inj (all_held hf) (hshape ▸ all_held hg) hcn hdn hends
  obtain rfl := eq_of_held hshape hlead hheld
  exact ⟨rfl, List.append_cancel_left htail⟩

end Fragment

end TeenyToC
