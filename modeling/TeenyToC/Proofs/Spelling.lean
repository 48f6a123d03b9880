import TeenyToC.Proofs.Formulas

/-! Expressions and conditions in C text. An operator and an operand are spelled there as they are
in a program, so the words are scanned back from the text (`Spelled.words_of_code`), and none of
the characters is one that ends an expression in a statement. -/

namespace TeenyToC

def isFormulaChar (c : Char) : Bool :=
  c.isAlphanum || c ∈ ['.', '+', '-', '*', '/', '=', '!', '<', '>', ' ']

theorem all_isFormulaChar_of_isName {cs : List Char} (h : isName cs) : cs.all isFormulaChar := by
  cases cs with
  | nil => rfl
  | cons c cs =>
    simp only [isName, Bool.and_eq_true, List.all_eq_true] at h
    rw [List.all_eq_true]
    intro d hd
    rcases List.mem_cons.mp hd with rfl | hd
    · simp [isFormulaChar, Char.isAlphanum, h.1]
    · simp [isFormulaChar, h.2 d hd]

theorem all_isFormulaChar_of_isNumeral {cs : List Char} (h : isNumeral cs) :
    cs.all isFormulaChar := by
  have hdigit {d : Char} (hd : d.isDigit) : isFormulaChar d := by
    simp [isFormulaChar, Char.isAlphanum, hd]
  have hwhole : (cs.takeWhile Char.isDigit).all isFormulaChar := by
    rw [List.all_eq_true]
    exact fun d hd => hdigit (List.all_eq_true.mp List.all_takeWhile d hd)
  have hfraction : (cs.dropWhile Char.isDigit).all isFormulaChar := by
    simp only [isNumeral, Bool.and_eq_true] at h
    split at h
    · next heq =>
      rw [heq]
      rfl
    · next c r heq =>
      simp only [Bool.and_eq_true, decide_eq_true_eq, List.all_eq_true] at h
      rw [heq, List.all_cons, h.2.1.1, Bool.and_eq_true, List.all_eq_true]
      exact ⟨by decide, fun d hd => hdigit (h.2.2 d hd)⟩
  rw [← List.takeWhile_append_dropWhile (p := Char.isDigit) (l := cs), List.all_append, hwhole,
    hfraction]
  rfl

theorem newline_not_mem_of_isFormulaChar {cs : List Char} (h : cs.all isFormulaChar) :
    '\n' ∉ cs := fun hmem => by
  simpa [isFormulaChar] using List.all_eq_true.mp h _ hmem

theorem newline_not_mem_of_isName {cs : List Char} (h : isName cs) : '\n' ∉ cs :=
  newline_not_mem_of_isFormulaChar (all_isFormulaChar_of_isName h)

namespace Lexes
variable {m r : List Char} {ws : List Word}

/-- A sign is scanned whatever follows it. -/
theorem sign (op : Additive) (h : Lexes m ws r) :
    Lexes (op.symbol.toList ++ m) (op.word :: ws) r := by
  have htrivia : skipTrivia (op.symbol.toList ++ m) = op.symbol.toList ++ m := by
    cases op <;> exact skipTrivia_cons _ (by decide) (by decide)
  have hlexes := Lexes.cons (x := ⟨.additive op, op.symbol.toList⟩)
    (by rw [htrivia, scan_additive]) nofun h
  simpa [Lexeme.word, Additive.word] using hlexes

theorem operand {o : Operand} (ho : o.word.Valid) (hm : Ends m) (h : Lexes m ws r) :
    Lexes (o.code.toList ++ m) (o.word :: ws) r := by
  have hspelling : o.word.spelling = o.code.toList := by
    cases o <;> rfl
  rw [← hspelling]
  exact .spelling ho hm h

end Lexes

/-- The code of each item is made of formula characters and is scanned as the words of the item. -/
structure Spelled {α : Type} (words : α → List Word) (code : α → String) : Prop where
  ne_nil : ∀ a, words a ≠ []
  lexes : ∀ (a : α) (m r : List Char) (ws : List Word), (∀ w ∈ words a, w.Valid) → Ends m →
    Lexes m ws r → Lexes ((code a).toList ++ m) (words a ++ ws) r
  all : ∀ a, (∀ w ∈ words a, w.Valid) → (code a).toList.all isFormulaChar

theorem spelled_factor : Spelled Factor.words Factor.code where
  ne_nil f := by
    obtain ⟨w, ws, h, -⟩ := f.words_eq_cons
    simp [h]
  lexes f m r ws hf hm h := by
    obtain ⟨sign, o⟩ := f
    obtain ⟨-, ho⟩ := List.forall_mem_append.mp hf
    have hoperand := h.operand (List.forall_mem_singleton.mp ho) hm
    cases sign with
    | none =>
      have hcode : (⟨none, o⟩ : Factor).code = o.code := String.empty_append
      rw [hcode]
      exact hoperand
    | some op =>
      have hcode : (⟨some op, o⟩ : Factor).code = op.symbol ++ o.code := rfl
      rw [hcode, String.toList_append, List.append_assoc]
      exact hoperand.sign op
  all f hf := by
    obtain ⟨sign, o⟩ := f
    obtain ⟨-, ho⟩ := List.forall_mem_append.mp hf
    have hoperand : o.code.toList.all isFormulaChar := by
      have ho := List.forall_mem_singleton.mp ho
      cases o with
      | number digits => exact all_isFormulaChar_of_isNumeral (isNumeral_of_valid ho)
      | name x => exact all_isFormulaChar_of_isName (isName_of_valid ho)
    cases sign with
    | none =>
      have hcode : (⟨none, o⟩ : Factor).code = o.code := String.empty_append
      rw [hcode, hoperand]
    | some op =>
      have hcode : (⟨some op, o⟩ : Factor).code = op.symbol ++ o.code := rfl
      have hop : op.symbol.toList.all isFormulaChar := by cases op <;> decide
      rw [hcode, String.toList_append, List.all_append, hop, hoperand]
      rfl

section Chains
variable {ω α : Type} {op : ω → Word} {opCode : ω → String} {item : α → List Word}
  {itemCode : α → String}

/-- A link of a chain, with blanks around its operator. -/
theorem toList_restCode_cons (o : ω) (a : α) (links : List (ω × α)) :
    (Chain.restCode opCode itemCode ((o, a) :: links)).toList =
      ' ' :: ((opCode o).toList ++ ' ' :: ((itemCode a).toList ++
        (Chain.restCode opCode itemCode links).toList)) := by
  simp [Chain.restCode]

/-- Every link begins with a blank, so what stands before it is at its end. -/
theorem Spelled.lexes_rest (h : Spelled item itemCode)
    (hop : ∀ o, (op o).Valid ∧ (op o).spelling = (opCode o).toList) {links : List (ω × α)}
    {m r : List Char} {ws : List Word} (hlinks : ∀ w ∈ Chain.restWords op item links, w.Valid)
    (hm : Ends m) (hws : Lexes m ws r) :
    Ends ((Chain.restCode opCode itemCode links).toList ++ m) ∧
      Lexes ((Chain.restCode opCode itemCode links).toList ++ m)
        (Chain.restWords op item links ++ ws) r := by
  induction links with
  | nil => exact ⟨hm, hws⟩
  | cons link links ih =>
    obtain ⟨o, a⟩ := link
    rw [Chain.restWords_cons, List.forall_mem_cons, List.forall_mem_append] at hlinks
    obtain ⟨hend, hlexes⟩ := ih hlinks.2.2
    have ha := h.lexes a _ _ _ hlinks.2.1 hend hlexes
    obtain ⟨w, us, hus⟩ := List.exists_cons_of_ne_nil (h.ne_nil a)
    rw [hus, List.cons_append] at ha
    have hblank : Ends (' ' :: ((itemCode a).toList ++
        ((Chain.restCode opCode itemCode links).toList ++ m))) :=
      ends_cons _ (by decide) (by decide) (by decide)
    have hspelling := Lexes.spelling (hop o).1 hblank ha.blank
    rw [Chain.restWords_cons, hus, toList_restCode_cons, ← (hop o).2]
    refine ⟨ends_cons _ (by decide) (by decide) (by decide), ?_⟩
    simpa using hspelling.blank

theorem Spelled.all_rest (h : Spelled item itemCode)
    (hop : ∀ o, (opCode o).toList.all isFormulaChar) {links : List (ω × α)}
    (hlinks : ∀ w ∈ Chain.restWords op item links, w.Valid) :
    (Chain.restCode opCode itemCode links).toList.all isFormulaChar := by
  induction links with
  | nil => rfl
  | cons link links ih =>
    obtain ⟨o, a⟩ := link
    rw [Chain.restWords_cons, List.forall_mem_cons, List.forall_mem_append] at hlinks
    have hblank : isFormulaChar ' ' := by decide
    rw [toList_restCode_cons, List.all_cons, List.all_append, List.all_cons, List.all_append,
      hblank, hop, h.all a hlinks.2.1, ih hlinks.2.2]
    rfl

theorem Spelled.chain (h : Spelled item itemCode)
    (hop : ∀ o, (op o).Valid ∧ (op o).spelling = (opCode o).toList)
    (hall : ∀ o, (opCode o).toList.all isFormulaChar) :
    Spelled (Chain.words op item) (Chain.code opCode itemCode) where
  ne_nil c := by
    obtain ⟨first, links⟩ := c
    have hne := h.ne_nil first
    simp [Chain.words, hne]
  lexes c m r ws hc hm hws := by
    obtain ⟨hfirst, hlinks⟩ := List.forall_mem_append.mp hc
    obtain ⟨hend, hlexes⟩ := h.lexes_rest hop hlinks hm hws
    rw [Chain.code_eq, String.toList_append, List.append_assoc, Chain.words_eq, List.append_assoc]
    exact h.lexes c.first _ _ _ hfirst hend hlexes
  all c hc := by
    obtain ⟨hfirst, hlinks⟩ := List.forall_mem_append.mp hc
    rw [Chain.code_eq, String.toList_append, List.all_append, h.all c.first hfirst,
      h.all_rest hall hlinks]
    rfl

end Chains

theorem spelled_term : Spelled Term.words Term.code :=
  spelled_factor.chain
    (fun op => ⟨⟨by cases op <;> decide, by cases op <;> decide⟩, by cases op <;> decide⟩)
    (fun op => by cases op <;> decide)

theorem spelled_expression : Spelled Expression.words Expression.code :=
  spelled_term.chain
    (fun op => ⟨⟨by cases op <;> decide, by cases op <;> decide⟩, by cases op <;> decide⟩)
    (fun op => by cases op <;> decide)

theorem spelled_comparisons : Spelled (Chain.words Comparison.word Expression.words)
    (Chain.code Comparison.symbol Expression.code) :=
  spelled_expression.chain
    (fun op => ⟨⟨by cases op <;> decide, by cases op <;> decide⟩, by cases op <;> decide⟩)
    (fun op => by cases op <;> decide)

namespace Spelled
variable {α : Type} {words : α → List Word} {code : α → String}

theorem lexes_code (h : Spelled words code) {a : α} (ha : ∀ w ∈ words a, w.Valid) :
    Lexes (code a).toList (words a) [] := by
  have hlexes := h.lexes a [] [] [] ha ends_nil (.nil [])
  rwa [List.append_nil, List.append_nil] at hlexes

theorem code_ne_nil (h : Spelled words code) {a : α} (ha : ∀ w ∈ words a, w.Valid) :
    (code a).toList ≠ [] := fun hcode =>
  h.ne_nil a ((hcode ▸ h.lexes_code ha).eq_of_nil (.nil []))

/-- Items with the same text have the same words. -/
theorem words_of_code (h : Spelled words code) {a b : α} (ha : ∀ w ∈ words a, w.Valid)
    (hb : ∀ w ∈ words b, w.Valid) (hcode : code a = code b) : words a = words b :=
  (hcode ▸ h.lexes_code ha).eq_of_nil (h.lexes_code hb)

end Spelled

end TeenyToC
