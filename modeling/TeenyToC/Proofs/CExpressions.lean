import TeenyToC.Proofs.CTokens
import TeenyToC.Proofs.Places
import TeenyToC.Proofs.Tables

/-! Expressions as C reads their tokens. The rules of C are given for lists of tokens and leave no
choice (`CSum.unique`), since an operator that begins an operand is told from one that joins two by
what stands before it. The tree of an expression, with signs closest, then products and then sums,
each level from the left, is one that the rules allow (`sum_tree`). -/

namespace TeenyToC

/-- The tree of an expression in C. -/
inductive CTree where
  | leaf (token : List Char)
  | unary (op : List Char) (operand : CTree)
  | binary (op : List Char) (left right : CTree)
  deriving DecidableEq, Repr

def unaryOperators : List (List Char) :=
  ["++", "--", "&", "*", "+", "-", "~", "!"].map String.toList

def productOperators : List (List Char) := ["*", "/", "%"].map String.toList

def sumOperators : List (List Char) := ["+", "-"].map String.toList

/-- Unary expressions, where the operand is a name or a number. -/
inductive CUnary : List (List Char) → CTree → Prop where
  | leaf {p : List Char} : isCName p ∨ isCNumber p → CUnary [p] (.leaf p)
  | unary {op : List Char} {ps : List (List Char)} {t : CTree} : op ∈ unaryOperators →
      CUnary ps t → CUnary (op :: ps) (.unary op t)

/-- Multiplicative expressions. -/
inductive CProduct : List (List Char) → CTree → Prop where
  | single {ps : List (List Char)} {t : CTree} : CUnary ps t → CProduct ps t
  | binary {op : List Char} {ps qs : List (List Char)} {t u : CTree} : op ∈ productOperators →
      CProduct ps t → CUnary qs u → CProduct (ps ++ op :: qs) (.binary op t u)

/-- Additive expressions. -/
inductive CSum : List (List Char) → CTree → Prop where
  | single {ps : List (List Char)} {t : CTree} : CProduct ps t → CSum ps t
  | binary {op : List Char} {ps qs : List (List Char)} {t u : CTree} : op ∈ sumOperators →
      CSum ps t → CProduct qs u → CSum (ps ++ op :: qs) (.binary op t u)

/-! The trees that the grammar of Teeny gives. -/

def Chain.tree {ω α : Type} (op : ω → String) (item : α → CTree) (c : Chain ω α) : CTree :=
  c.rest.foldl (fun t (o, a) => .binary (op o).toList t (item a)) (item c.first)

def Operand.tree (o : Operand) : CTree := .leaf o.code.toList

def Factor.tree (f : Factor) : CTree :=
  match f.sign with
  | none => f.operand.tree
  | some op => .unary op.symbol.toList f.operand.tree

def Term.tree (t : Term) : CTree := Chain.tree Multiplicative.symbol Factor.tree t

def Expression.tree (e : Expression) : CTree := Chain.tree Additive.symbol Term.tree e

/-! The rules of C leave no choice. A reader goes through the tokens once, and knows by its state
which rule a token belongs to. -/

/-- What waits for an operand: a sum and a product that are not complete, and the unary operators
right before it, the last one first. -/
structure Waiting where
  sum : Option (CTree × List Char)
  product : Option (CTree × List Char)
  signs : List (List Char)

def join (pending : Option (CTree × List Char)) (t : CTree) : CTree :=
  match pending with
  | none => t
  | some (left, op) => .binary op left t

mutual

/-- The tree of some tokens, from a place where an operand or its sign is awaited. -/
def treeFrom (w : Waiting) : List (List Char) → Option CTree
  | [] => none
  | p :: ps =>
    if unaryOperators.contains p then treeFrom { w with signs := p :: w.signs } ps
    else treeAfter w.sum (join w.product (w.signs.foldl (fun t op => .unary op t) (.leaf p))) ps

/-- The tree of some tokens, behind an operand. -/
def treeAfter (sum : Option (CTree × List Char)) (product : CTree) :
    List (List Char) → Option CTree
  | [] => some (join sum product)
  | p :: ps =>
    if productOperators.contains p then treeFrom ⟨sum, some (product, p), []⟩ ps
    else treeFrom ⟨some (join sum product, p), none, []⟩ ps

end

section
variable {ps qs : List (List Char)} {t u : CTree}

theorem CUnary.treeFrom_eq (h : CUnary ps t) (w : Waiting) (qs : List (List Char)) :
    treeFrom w (ps ++ qs) =
      treeAfter w.sum (join w.product (w.signs.foldl (fun t op => .unary op t) t)) qs := by
  induction h generalizing w with
  | @leaf p hp =>
    have hall : ∀ op ∈ unaryOperators, isCName op = false ∧ isCNumber op = false := by decide
    have hoperator : p ∉ unaryOperators := fun hmem => by
      obtain ⟨hname, hnumber⟩ := hall p hmem
      simp [hname, hnumber] at hp
    rw [List.singleton_append, treeFrom, if_neg (mt List.contains_iff_mem.mp hoperator)]
  | unary hop _ ih =>
    rw [List.cons_append, treeFrom, if_pos (List.contains_iff_mem.mpr hop), ih]
    rfl

theorem CProduct.treeFrom_eq (h : CProduct ps t) (sum : Option (CTree × List Char))
    (qs : List (List Char)) : treeFrom ⟨sum, none, []⟩ (ps ++ qs) = treeAfter sum t qs := by
  induction h generalizing qs with
  | single h => exact h.treeFrom_eq _ qs
  | binary hop _ hu ih =>
    rw [List.append_assoc, ih, List.cons_append, treeAfter, if_pos (List.contains_iff_mem.mpr hop),
      hu.treeFrom_eq]
    rfl

theorem CSum.treeFrom_eq (h : CSum ps t) : ∃ sum product, join sum product = t ∧
    ∀ qs, treeFrom ⟨none, none, []⟩ (ps ++ qs) = treeAfter sum product qs := by
  induction h with
  | single h => exact ⟨none, _, rfl, h.treeFrom_eq none⟩
  | @binary op _ _ t u hop _ hu ih =>
    obtain ⟨sum, product, rfl, ih⟩ := ih
    have hall : ∀ op ∈ sumOperators, op ∉ productOperators := by decide
    refine ⟨some (join sum product, op), u, rfl, fun rs => ?_⟩
    rw [List.append_assoc, ih, List.cons_append, treeAfter,
      if_neg (mt List.contains_iff_mem.mp (hall op hop)), hu.treeFrom_eq]

theorem CSum.unique (h : CSum ps t) (h' : CSum ps u) : t = u := by
  have hread {t : CTree} (h : CSum ps t) : treeFrom ⟨none, none, []⟩ ps = some t := by
    obtain ⟨sum, product, rfl, hread⟩ := h.treeFrom_eq
    simpa [treeAfter] using hread []
  exact Option.some.inj ((hread h).symm.trans (hread h'))

end

/-! The tree of an expression is one that the rules allow. -/

theorem unary_tree {f : Factor} (hf : ∀ w ∈ f.words, w.Valid) :
    CUnary (texts f.words) f.tree := by
  obtain ⟨sign, o⟩ := f
  obtain ⟨-, ho⟩ := List.forall_mem_append.mp hf
  have htexts : texts [o.word] = [o.code.toList] := by cases o <;> rfl
  have hoperand : CUnary (texts [o.word]) o.tree := by
    rw [htexts]
    exact .leaf (name_or_number (List.forall_mem_singleton.mp ho))
  cases sign with
  | none => exact hoperand
  | some op =>
    have hop : op.symbol.toList ∈ unaryOperators := by cases op <;> decide
    exact .unary hop hoperand

section Chains
variable {ω α : Type} {op : ω → Word} {opCode : ω → String} {item : α → List Word}
  {itemTree : α → CTree} {ops : List (List Char)} {inner outer : List (List Char) → CTree → Prop}

/-- The rules for one level of operators take the items of a chain from the left. -/
theorem chain_tree (hop : ∀ o, (op o).2 = opCode o ∧ (opCode o).toList ∈ ops)
    (hsingle : ∀ ps t, inner ps t → outer ps t)
    (hbinary : ∀ op ps qs t u, op ∈ ops → outer ps t → inner qs u →
      outer (ps ++ op :: qs) (.binary op t u))
    (hitem : ∀ a, (∀ w ∈ item a, w.Valid) → inner (texts (item a)) (itemTree a))
    {c : Chain ω α} (hc : ∀ w ∈ c.words op item, w.Valid) :
    outer (texts (c.words op item)) (c.tree opCode itemTree) := by
  obtain ⟨first, rest⟩ := c
  rw [Chain.words_eq] at hc ⊢
  obtain ⟨hfirst, hrest⟩ := List.forall_mem_append.mp hc
  have hstart := hsingle _ _ (hitem first hfirst)
  clear hc hfirst
  rw [texts_append]
  change outer _ (rest.foldl _ (itemTree first))
  generalize texts (item first) = ps at hstart ⊢
  generalize itemTree first = t at hstart ⊢
  -- The tree grows at its root, so the induction is over any tokens and tree before the rest.
  induction rest generalizing ps t with
  | nil => simpa [Chain.restWords, texts] using hstart
  | cons link rest ih =>
    obtain ⟨o, a⟩ := link
    rw [Chain.restWords_cons, List.forall_mem_cons, List.forall_mem_append] at hrest
    obtain ⟨-, ha, hrest⟩ := hrest
    have hstep := hbinary _ _ _ _ _ (hop o).2 hstart (hitem a ha)
    have hjoined := ih hrest _ _ hstep
    rw [texts_link fun o => (hop o).1, List.foldl_cons]
    simpa using hjoined

end Chains

theorem product_tree {t : Term} (ht : ∀ w ∈ t.words, w.Valid) :
    CProduct (texts t.words) t.tree :=
  chain_tree (fun op => ⟨rfl, by cases op <;> decide⟩) (fun _ _ => .single)
    (fun _ _ _ _ _ => .binary) (fun _ => unary_tree) ht

theorem sum_tree {e : Expression} (he : ∀ w ∈ e.words, w.Valid) : CSum (texts e.words) e.tree :=
  chain_tree (fun op => ⟨rfl, by cases op <;> decide⟩) (fun _ _ => .single)
    (fun _ _ _ _ _ => .binary) (fun _ => product_tree) he

/-! Expressions in the text of a program. -/

/-- What stands right before an expression. What is printed may also be a string. -/
def Kind.opensExpression : Kind → Bool
  | .keyword .print | .keyword (.head _) | .equals | .comparison _ => true
  | _ => false

def Kind.isOperator : Kind → Bool
  | .additive _ | .multiplicative _ => true
  | _ => false

namespace Compilation
variable {s m : Compilation} {p : Place} {v w : Word} {ws : List Word} {c : CSource}

theorem equals_of_step (h : s.step (.ofWord (.equals, "=")) = .ok m) :
    s.phase = .equals ∧ m = s.await (.signed .assign) := by
  have htakes := takes_of_step h nofun
  cases hs : s.phase with
  | equals =>
    rw [step_equals hs] at h
    exact ⟨rfl, (expect_eq_ok_iff.mp h).2.symm⟩
  | _ =>
    rw [hs] at htakes
    cases htakes

theorem comparison_of_step {op : Comparison} (h : s.step (.ofWord op.word) = .ok m) :
    ∃ b, m = (s.write (" " ++ op.symbol ++ " ")).await (.signed (.guard b true)) := by
  have htakes := takes_of_step h nofun
  cases hs : s.phase with
  | operator p =>
    rw [hs] at htakes
    rcases p with _ | _ | ⟨b, compared⟩
    · cases htakes
    · cases htakes
    · rw [step_operator hs] at h
      cases h
      exact ⟨b, rfl⟩
  | _ =>
    rw [hs] at htakes
    cases htakes

theorem getLast?_of_append {a b : String} {d : Char} (h : b.toList.getLast? = some d) :
    (a ++ b).toList.getLast? = some d := by
  rw [String.toList_append, List.getLast?_append, h]
  rfl

/-- Where an expression is awaited, what has been written keeps its characters from those before. -/
theorem opened_of_step (hs : s.Sound) (hw : w.Valid) (hopens : w.1.opensExpression)
    (h : s.step (.ofWord w) = .ok m) : (m.phase = .printed ∨ ∃ p, m.phase = .signed p) ∧
      ∃ d ∈ ['(', ' '], (m.code.body ++ m.opening).toList.getLast? = some d := by
  obtain ⟨kind, text⟩ := w
  have hunprinted {m : Compilation} {p : Place} (hm : m.phase = .signed p) :
      m.code.body ++ m.opening = m.code.body := by
    rw [opening, hm]
    exact String.append_empty
  cases kind with
  | keyword k =>
    obtain rfl : text = k.spelling := congrArg Prod.snd (hw.eq_of_text? rfl rfl)
    cases k with
    | print =>
      obtain ⟨-, rfl⟩ := headed_of_step (k := .print) rfl h
      have hopening : (s.await .printed).opening = "printf(\"%.2f\\n\", (float)(" := rfl
      rw [hopening]
      exact ⟨.inl rfl, '(', by simp, getLast?_of_append rfl⟩
    | head b =>
      obtain ⟨-, rfl⟩ := headed_of_step (k := .head b) rfl h
      refine ⟨.inr ⟨_, rfl⟩, '(', by simp, ?_⟩
      rw [hunprinted rfl]
      exact getLast?_of_append (by cases b <;> rfl)
    | _ => cases hopens
  | equals =>
    obtain rfl : text = "=" := congrArg Prod.snd (hw.eq_of_text? rfl rfl)
    obtain ⟨hphase, rfl⟩ := equals_of_step h
    obtain ⟨done, last, ⟨-, hwritten, -⟩, hlast⟩ := hs
    rw [Unfinished, hphase] at hlast
    cases hlast
    refine ⟨.inr ⟨_, rfl⟩, ' ', by simp, ?_⟩
    rw [hunprinted rfl]
    change s.code.body.toList.getLast? = _
    rw [hwritten.eq]
    simp
  | comparison op =>
    obtain rfl : text = op.symbol := congrArg Prod.snd (hw.eq_of_text? rfl rfl)
    obtain ⟨b, rfl⟩ := comparison_of_step h
    refine ⟨.inr ⟨_, rfl⟩, ' ', by simp, ?_⟩
    rw [hunprinted rfl]
    exact getLast?_of_append (getLast?_of_append rfl)
  | _ => cases hopens

/-- The words of an expression are read in the same way where it is printed. -/
theorem Produces.started (hphase : s.phase = .printed ∨ ∃ p, s.phase = .signed p)
    (h : s.Produces ws c) (hstring : ∀ v ∈ ws.head?, v.1 ≠ .string) :
    ∃ (r : Compilation) (p : Place), r.phase = .signed p ∧
      r.code.body = s.code.body ++ s.opening ∧ r.Produces ws c ∧
        ∀ e : Expression, s.read e.words = r.read e.words := by
  rcases hphase with hs | ⟨p, hs⟩
  · let started := (s.write "printf(\"%.2f\\n\", (float)(").await (.signed .print)
    refine ⟨started, .print, rfl, by rw [opening, hs]; rfl, ?_, fun e => ?_⟩
    · obtain ⟨w, us, -, rfl, -, -⟩ := h.finishes.next (by simp [hs])
      rwa [Produces, read_printed_cons hs (hstring w rfl)] at h
    · have hread := read_printed hs e []
      rwa [List.append_nil] at hread
  · exact ⟨s, p, hs, by rw [opening, hs]; exact String.append_empty.symm, h, fun _ => rfl⟩

/-- Behind an expression the text goes on with a mark that belongs to no operand. -/
theorem Follows.delimited {phase : Phase} (hv : Follows p v phase) (hs : s.phase = .operator p)
    (h : s.step (.ofWord v) = .ok m) : v.1.isOperator = false ∧
      ∃ code, m.code.body = s.code.body ++ code ∧ ∀ r : String, Delimited (code ++ r).toList := by
  have hdelimited {code : String} {d : Char} {ds : List Char} (hcode : code.toList = d :: ds)
      (hd : d ∈ [' ', ')', ';']) (r : String) : Delimited (code ++ r).toList := by
    rw [String.toList_append, hcode, List.cons_append]
    exact .cons hd _
  rw [step_operator hs] at h
  cases hv with
  | print =>
    cases h
    exact ⟨rfl, "));" ++ "\n", rfl, hdelimited rfl (by decide)⟩
  | assign =>
    cases h
    exact ⟨rfl, ";" ++ "\n", rfl, hdelimited rfl (by decide)⟩
  | comparison b compared o =>
    have hcode : (" " ++ o.symbol ++ " ").toList = ' ' :: (o.symbol ++ " ").toList := by simp
    cases h
    exact ⟨rfl, " " ++ o.symbol ++ " ", rfl, hdelimited hcode (by decide)⟩
  | entry b =>
    obtain ⟨-, rfl⟩ := expect_eq_ok_iff.mp h
    exact ⟨rfl, ")\x7b" ++ "\n", rfl, hdelimited rfl (by decide)⟩

/-- Where an expression is awaited, there is one, and it is written in front of a mark. -/
theorem Produces.expression (hs : s.phase = .signed p) (h : s.Produces ws c)
    (hws : ∀ w ∈ ws, w.Valid) : ∃ (e : Expression) (v : Word) (rest : List Word)
      (m : Compilation) (trail : String), ws = e.words ++ v :: rest ∧ v.1.isOperator = false ∧
        s.read e.words = .ok m ∧ m.code.body = s.code.body ++ e.code ∧
        c.body = m.code.body ++ trail ∧ Delimited trail.toList := by
  obtain ⟨e, v, rest, _, rfl, hfollows, -⟩ := read_expression_inv hs h.finishes hws
  obtain ⟨m, hread, hm⟩ := h.of_append
  obtain ⟨-, rfl⟩ := (read_expression hs e).mp hread
  obtain ⟨r, hstep, hr⟩ := hm.of_cons
  obtain ⟨hoperator, code, hcode, hdelimited⟩ := hfollows.delimited rfl hstep
  obtain ⟨tail, htail⟩ := hr.extends
  refine ⟨e, v, rest, _, code ++ tail, rfl, hoperator, hread, rfl, ?_, hdelimited tail⟩
  rw [htail, hcode, String.append_assoc]

end Compilation

/-- Every expression is cut into tokens by C, in its place in the text, as in the program, and its
tokens have the tree of the program and no other. -/
theorem expression_cuts_and_tree {source : String} {c : CSource} {ts : List Token}
    {before after : List Word} {w : Word} (h : compile source = .ok c)
    (hts : tokenize source = .ok ts) (hws : ts.map Token.word = before ++ w :: after)
    (hopens : w.1.opensExpression) (hstring : ∀ v ∈ after.head?, v.1 ≠ .string) :
    ∃ (e : Expression) (rest : List Word), after = e.words ++ rest ∧
      (∀ v ∈ rest.head?, v.1.isOperator = false) ∧
      ∃ lead trail, WrittenAs c (before ++ [w]) e.words lead e.code trail ∧
        (∃ d ∈ ['(', ' '], lead.toList.getLast? = some d) ∧
        (∀ ps, Cuts (e.code ++ trail).toList ps trail.toList ↔ ps = texts e.words) ∧
        ∀ t, CSum (texts e.words) t ↔ t = e.tree := by
  have hw : w ≠ eofWord := by
    rintro rfl
    cases hopens
  obtain ⟨s, us, hs, rfl, hproduces, hvalid⟩ := exists_produces h hts hws hw
  obtain ⟨hbefore, hvalid⟩ := List.forall_mem_append.mp hvalid
  obtain ⟨hw, hus⟩ := List.forall_mem_cons.mp hvalid
  obtain ⟨m, hstep, hm⟩ := hproduces.of_cons
  have hsound := Compilation.sound_read Compilation.sound_start hbefore hs
  obtain ⟨hphase, hlead⟩ := Compilation.opened_of_step hsound hw hopens hstep
  have hstring' : ∀ v ∈ us.head?, v.1 ≠ .string := fun v hv =>
    hstring v (by rw [List.head?_append, hv]; rfl)
  -- A printed value writes its opening with its first word. From the state `r` behind the opening
  -- it is read as any other expression.
  obtain ⟨r, p, hr, hbody, hproduces, hsame⟩ := hm.started hphase hstring'
  obtain ⟨e, v, rest, n, trail, rfl, hoperator, hread, hcode, htrail, hdelimited⟩ :=
    hproduces.expression hr hus
  obtain ⟨he, -⟩ := List.forall_mem_append.mp hus
  have hopened : Compilation.start.read (before ++ [w]) = .ok m :=
    (Compilation.read_append_of_ok hs).trans (Compilation.read_singleton.trans hstep)
  have hwritten : WrittenAs c (before ++ [w]) e.words (m.code.body ++ m.opening) e.code trail :=
    writtenAs_of_read hopened ((hsame e).trans hread) (hbody ▸ hcode) htrail
  have hcuts : Cuts (e.code ++ trail).toList (texts e.words) trail.toList := by
    rw [String.toList_append]
    exact cut_expression.cuts e _ he hdelimited
  refine ⟨e, v :: rest ++ [eofWord], by simp, ?_, _, _, hwritten, hlead, fun ps => ?_, fun t => ?_⟩
  · intro v' hv'
    obtain rfl : v = v' := by simpa using hv'
    exact hoperator
  · constructor
    · exact fun h => h.unique hcuts
    · rintro rfl
      exact hcuts
  · constructor
    · exact fun h => h.unique (sum_tree he)
    · rintro rfl
      exact sum_tree he

/-- A difference from the left, with a sign behind an operator and a product in it. -/
theorem expression_cuts_and_tree_signs : ∃ c ts, compile "INPUT b\nPRINT 8 - -b / 2 - 1" = .ok c ∧
    tokenize "INPUT b\nPRINT 8 - -b / 2 - 1" = .ok ts ∧
      ∃ (before after : List Word), ts.map Token.word = before ++ Keyword.word .print :: after ∧
        ∃ (e : Expression) (rest : List Word), after = e.words ++ rest ∧
          ∃ lead trail,
            WrittenAs c (before ++ [Keyword.word .print]) e.words lead e.code trail ∧
              (∀ ps, Cuts (e.code ++ trail).toList ps trail.toList ↔ ps = texts e.words) ∧
                ∀ t, CSum (texts e.words) t ↔ t = e.tree := by
  have h : compile "INPUT b\nPRINT 8 - -b / 2 - 1" = .ok
      ⟨"#include <stdio.h>\nint main(void)\x7b\nfloat b;\n",
        "if(1 != scanf(\"%f\", &b)) \x7b\nb = 0;\nscanf(\"%*s\");\n\x7d\n" ++
          "printf(\"%.2f\\n\", (float)(8 - -b / 2 - 1));\nreturn 0;\n\x7d\n"⟩ := by cbv
  let ts : List Token := [⟨.keyword .input, "INPUT", 1⟩, ⟨.ident, "b", 1⟩, ⟨.newline, "\n", 1⟩,
    ⟨.keyword .print, "PRINT", 2⟩, ⟨.number, "8", 2⟩, ⟨.additive .minus, "-", 2⟩,
    ⟨.additive .minus, "-", 2⟩, ⟨.ident, "b", 2⟩, ⟨.multiplicative .divide, "/", 2⟩,
    ⟨.number, "2", 2⟩, ⟨.additive .minus, "-", 2⟩, ⟨.number, "1", 2⟩, ⟨.newline, "\n", 2⟩,
    ⟨.eof, "", 3⟩]
  have hts : tokenize "INPUT b\nPRINT 8 - -b / 2 - 1" = .ok ts := by cbv
  let before : List Word := [Keyword.word .input, nameWord "b", newlineWord]
  let after : List Word := [(.number, "8"), Additive.minus.word, Additive.minus.word, nameWord "b",
    Multiplicative.divide.word, (.number, "2"), Additive.minus.word, (.number, "1"), newlineWord,
    eofWord]
  have hws : ts.map Token.word = before ++ Keyword.word .print :: after := rfl
  obtain ⟨e, rest, hafter, -, lead, trail, hwritten, -, hcuts, htree⟩ :=
    expression_cuts_and_tree h hts hws rfl (by simp [after])
  exact ⟨_, _, h, hts, before, after, hws, e, rest, hafter, lead, trail, hwritten, hcuts, htree⟩

end TeenyToC
