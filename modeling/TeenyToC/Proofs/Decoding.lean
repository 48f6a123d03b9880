import TeenyToC.Proofs.Fragments
import TeenyToC.Proofs.Layout

/-! A program is told by its C text, up to its layout (`layout_eq_of_text_eq`). The text is read as
fragments from the front. A brace that closes a block does not tell which; the block is known from
its head. -/

namespace TeenyToC

def Simple.fragment : Simple → Fragment
  | printText text => .text text.toList
  | printValue e => .value e.code.toList
  | label name => .label name.toList
  | goto name => .phrase ['g', 'o', 't', 'o'] name.toList
  | assign name e => .assign name.toList e.code.toList
  | input name => .input name.toList

theorem Simple.toList_code (st : Simple) : st.code.toList = st.fragment.code := by
  cases st with
  | printText text =>
    change ("printf(\"" ++ text ++ "\\n\");\n").toList = _
    simp [fragment, Fragment.code, Fragment.tail]
  | printValue e =>
    change ("printf(\"%.2f\\n\", (float)(" ++ e.code ++ "));\n").toList = _
    simp [fragment, Fragment.code, Fragment.tail]
  | label name =>
    change (name ++ ":;\n").toList = _
    simp [fragment, Fragment.code, Fragment.tail]
  | goto name =>
    change ("goto " ++ name ++ ";\n").toList = _
    simp [fragment, Fragment.code, Fragment.tail]
  | assign name e =>
    change (name ++ " = " ++ e.code ++ ";\n").toList = _
    simp [fragment, Fragment.code, Fragment.tail]
  | input name =>
    change ("if(1 != scanf(\"%f\", &" ++ name ++ ")) \x7b\n" ++ name ++ " = 0;\n" ++
      "scanf(\"%*s\");\n" ++ "\x7d\n").toList = _
    simp [fragment, Fragment.code, Fragment.tail]

theorem Simple.valid_fragment {st : Simple} (h : ∀ w ∈ st.words, w.Valid) : st.fragment.Valid := by
  cases st with
  | printText text => exact (h (.string, text) (by simp [words])).admits
  | printValue e =>
    exact spelled_expression.all e (List.forall_mem_cons.mp h).2
  | label name => exact isName_of_valid (h _ (by simp [words]))
  | goto name => exact ⟨rfl, isName_of_valid (h _ (by simp [words]))⟩
  | assign name e =>
    exact ⟨isName_of_valid (h _ (by simp [words])),
      spelled_expression.all e (List.forall_mem_append.mp h).2⟩
  | input name => exact isName_of_valid (h _ (by simp [words]))

/-- A fragment holds the words of its statement, but for how its expression is split into them. -/
theorem Simple.words_of_fragment {st st' : Simple} (h : ∀ w ∈ st.words, w.Valid)
    (h' : ∀ w ∈ st'.words, w.Valid) (heq : st.fragment = st'.fragment) : st.words = st'.words := by
  cases st with
  | printText text =>
    cases st' with
    | printText text' => rw [String.toList_inj.mp (Fragment.text.inj heq)]
    | _ => cases heq
  | printValue e =>
    cases st' with
    | printValue e' =>
      exact congrArg (_ :: ·) (spelled_expression.words_of_code (List.forall_mem_cons.mp h).2
        (List.forall_mem_cons.mp h').2 (String.toList_inj.mp (Fragment.value.inj heq)))
    | _ => cases heq
  | label name =>
    cases st' with
    | label name' => rw [String.toList_inj.mp (Fragment.label.inj heq)]
    | _ => cases heq
  | goto name =>
    cases st' with
    | goto name' => rw [String.toList_inj.mp (Fragment.phrase.inj heq).2]
    | _ => cases heq
  | assign name e =>
    cases st' with
    | assign name' e' =>
      obtain ⟨hname, hcode⟩ := Fragment.assign.inj heq
      have he := spelled_expression.words_of_code (List.forall_mem_append.mp h).2
        (List.forall_mem_append.mp h').2 (String.toList_inj.mp hcode)
      rw [words, words, String.toList_inj.mp hname, he]
    | _ => cases heq
  | input name =>
    cases st' with
    | input name' => rw [String.toList_inj.mp (Fragment.input.inj heq)]
    | _ => cases heq

theorem Condition.valid_fragment {c : Condition} (h : ∀ w ∈ c.words, w.Valid) (b : Block) :
    (Fragment.head b c.code.toList).Valid :=
  ⟨spelled_comparisons.code_ne_nil h, spelled_comparisons.all c.chain h⟩

/-- The text ends, or a block does. -/
def Closed (k : List Char) : Prop := ∀ c ∈ k.head?, c = '\x7d'

theorem Fragment.code_append_ne {f : Fragment} (hf : f.Valid) (r : List Char) {k : List Char}
    (hk : Closed k) : f.code ++ r ≠ k := by
  rintro rfl
  obtain ⟨c, s, hc, -, hne⟩ := f.tail_eq_cons
  rw [code, hc] at hk
  cases hlead : f.lead with
  | nil =>
    rw [hlead] at hk
    exact hne (hk c rfl)
  | cons d lead =>
    rw [hlead] at hk
    have hd : d.isAlphanum := List.all_eq_true.mp (all_lead hf) d (hlead ▸ List.mem_cons_self)
    obtain rfl : d = '\x7d' := hk d rfl
    exact absurd hd (by decide)

namespace Program

theorem toList_code_simple (st : Simple) (rest : Program) (k : List Char) :
    (simple st rest).code.toList ++ k = st.fragment.code ++ (rest.code.toList ++ k) := by
  have hcode : (simple st rest).code = st.code ++ rest.code := rfl
  rw [hcode, String.toList_append, st.toList_code, List.append_assoc]

theorem toList_code_block (b : Block) (c : Condition) (body rest : Program) (k : List Char) :
    (block b c body rest).code.toList ++ k = (Fragment.head b c.code.toList).code ++
      (body.code.toList ++ '\x7d' :: '\n' :: (rest.code.toList ++ k)) := by
  have hcode : (block b c body rest).code = b.code c.code body.code ++ rest.code := rfl
  have hblock : (b.code c.code body.code).toList =
      (Fragment.head b c.code.toList).code ++ (body.code.toList ++ ['\x7d', '\n']) := by
    cases b <;> simp [Block.code, Fragment.code, Fragment.tail, Block.lead]
  rw [hcode, String.toList_append, hblock]
  simp

/-- The words of a tree are told by the text up to where it ends. -/
theorem code_append_inj {p q : Program} (hp : ∀ w ∈ p.words, w.Valid) (hq : ∀ w ∈ q.words, w.Valid)
    {k l : List Char} (hk : Closed k) (hl : Closed l)
    (h : p.code.toList ++ k = q.code.toList ++ l) : p.words = q.words ∧ k = l := by
  induction p generalizing q k l with
  | empty =>
    cases q with
    | empty => exact ⟨rfl, h⟩
    | simple st' rest' =>
      have hst' := Simple.valid_fragment (List.forall_mem_append.mp hq).1
      rw [toList_code_simple] at h
      exact absurd h.symm (Fragment.code_append_ne hst' _ hk)
    | block b' c' body' rest' =>
      have hc' : ∀ w ∈ c'.words, w.Valid := fun w hw => hq w (by simp [words, hw])
      rw [toList_code_block] at h
      exact absurd h.symm (Fragment.code_append_ne (Condition.valid_fragment hc' b') _ hk)
  | simple st rest ih =>
    obtain ⟨hst, hrest⟩ := List.forall_mem_append.mp hp
    have hfragment := Simple.valid_fragment hst
    rw [toList_code_simple] at h
    cases q with
    | empty => exact absurd h (Fragment.code_append_ne hfragment _ hl)
    | simple st' rest' =>
      obtain ⟨hst', hrest'⟩ := List.forall_mem_append.mp hq
      rw [toList_code_simple] at h
      obtain ⟨heq, htext⟩ := Fragment.code_append_inj hfragment (Simple.valid_fragment hst') h
      have htail := (List.forall_mem_cons.mp hrest).2
      have htail' := (List.forall_mem_cons.mp hrest').2
      obtain ⟨hwords, rfl⟩ := ih htail htail' hk hl htext
      rw [words, words, Simple.words_of_fragment hst hst' heq, hwords]
      exact ⟨rfl, rfl⟩
    | block b' c' body' rest' =>
      have hc' : ∀ w ∈ c'.words, w.Valid := fun w hw => hq w (by simp [words, hw])
      rw [toList_code_block] at h
      obtain ⟨heq, -⟩ := Fragment.code_append_inj hfragment (Condition.valid_fragment hc' b') h
      cases st <;> cases heq
  | block b c body rest ihb ihr =>
    have hc : ∀ w ∈ c.words, w.Valid := fun w hw => hp w (by simp [words, hw])
    have hbody : ∀ w ∈ body.words, w.Valid := fun w hw => hp w (by simp [words, hw])
    have hrest : ∀ w ∈ rest.words, w.Valid := fun w hw => hp w (by simp [words, hw])
    have hfragment := Condition.valid_fragment hc b
    rw [toList_code_block] at h
    cases q with
    | empty => exact absurd h (Fragment.code_append_ne hfragment _ hl)
    | simple st' rest' =>
      have hst' := Simple.valid_fragment (List.forall_mem_append.mp hq).1
      rw [toList_code_simple] at h
      obtain ⟨heq, -⟩ := Fragment.code_append_inj hfragment hst' h
      cases st' <;> cases heq
    | block b' c' body' rest' =>
      have hc' : ∀ w ∈ c'.words, w.Valid := fun w hw => hq w (by simp [words, hw])
      have hbody' : ∀ w ∈ body'.words, w.Valid := fun w hw => hq w (by simp [words, hw])
      have hrest' : ∀ w ∈ rest'.words, w.Valid := fun w hw => hq w (by simp [words, hw])
      have hclosed (r : List Char) : Closed ('\x7d' :: r) := fun c hc => by simpa using hc.symm
      rw [toList_code_block] at h
      obtain ⟨heq, htext⟩ := Fragment.code_append_inj hfragment (Condition.valid_fragment hc' b') h
      obtain ⟨rfl, hcode⟩ := Fragment.head.inj heq
      have hconditions : c.words = c'.words :=
        spelled_comparisons.words_of_code hc hc' (String.toList_inj.mp hcode)
      obtain ⟨hbodies, htext⟩ := ihb hbody hbody' (hclosed _) (hclosed _) htext
      obtain ⟨hrests, rfl⟩ := ihr hrest hrest' hk hl (List.cons.inj (List.cons.inj htext).2).2
      rw [words, words, hconditions, hbodies, hrests]
      exact ⟨rfl, rfl⟩

def declaration (name : List Char) : Fragment := .phrase ['f', 'l', 'o', 'a', 't'] name

theorem valid_declaration {name : List Char} (h : isName name) : (declaration name).Valid :=
  ⟨rfl, h⟩

/-- No program begins with a declaration. -/
theorem code_ne_declaration {p : Program} (hp : ∀ w ∈ p.words, w.Valid) {name r : List Char}
    (hname : isName name) : p.code.toList ≠ (declaration name).code ++ r := by
  intro h
  have hdeclaration := valid_declaration hname
  rw [← List.append_nil p.code.toList] at h
  cases p with
  | empty => cases h
  | simple st rest =>
    rw [toList_code_simple] at h
    obtain ⟨heq, -⟩ := Fragment.code_append_inj
      (Simple.valid_fragment (List.forall_mem_append.mp hp).1) hdeclaration h
    cases st <;> cases heq
  | block b c body rest =>
    have hc : ∀ w ∈ c.words, w.Valid := fun w hw => hp w (by simp [words, hw])
    rw [toList_code_block] at h
    obtain ⟨heq, -⟩ := Fragment.code_append_inj (Condition.valid_fragment hc b) hdeclaration h
    cases heq

theorem toList_declarations_cons (x : String) (xs : List String) (k : List Char) :
    (declarations (x :: xs)).toList ++ k =
      (declaration x.toList).code ++ ((declarations xs).toList ++ k) := by
  simp [declarations, declaration, Fragment.code, Fragment.tail]

/-- The declarations before a program end where the program starts. -/
theorem code_of_declarations {p q : Program} (hp : ∀ w ∈ p.words, w.Valid)
    (hq : ∀ w ∈ q.words, w.Valid) {xs ys : List String} (hxs : ∀ x ∈ xs, isName x.toList)
    (hys : ∀ y ∈ ys, isName y.toList)
    (h : (declarations xs).toList ++ p.code.toList = (declarations ys).toList ++ q.code.toList) :
    p.code.toList = q.code.toList := by
  induction xs generalizing ys with
  | nil =>
    cases ys with
    | nil => exact h
    | cons y ys =>
      rw [toList_declarations_cons] at h
      exact absurd h (code_ne_declaration hp (List.forall_mem_cons.mp hys).1)
  | cons x xs ih =>
    obtain ⟨hx, hxs⟩ := List.forall_mem_cons.mp hxs
    rw [toList_declarations_cons] at h
    cases ys with
    | nil => exact absurd h.symm (code_ne_declaration hq hx)
    | cons y ys =>
      obtain ⟨hy, hys⟩ := List.forall_mem_cons.mp hys
      rw [toList_declarations_cons] at h
      exact ih hxs hys (Fragment.code_append_inj (valid_declaration hx) (valid_declaration hy) h).2

theorem simples_words_subset {p : Program} {st : Simple} (h : st ∈ p.simples) :
    st.words ⊆ p.words := by
  induction p with
  | empty => cases h
  | simple s rest ih =>
    rcases List.mem_cons.mp h with rfl | h
    · exact List.subset_append_left _ _
    · intro w hw
      exact List.mem_append_right _ (List.mem_cons_of_mem _ (ih h hw))
  | block b c body rest ihb ihr =>
    intro w hw
    rcases List.mem_append.mp h with h | h
    · have hbody := ihb h hw
      simp [words, hbody]
    · have hrest := ihr h hw
      simp [words, hrest]

theorem isName_of_mem_targets {p : Program} (hp : ∀ w ∈ p.words, w.Valid) {x : String}
    (hx : x ∈ p.targets) : isName x.toList := by
  rw [targets, List.mem_eraseDups, List.mem_filterMap] at hx
  obtain ⟨st, hst, htarget⟩ := hx
  have hwords := simples_words_subset hst
  cases st <;> cases htarget <;> exact isName_of_valid (hp _ (hwords (by simp [Simple.words])))

theorem words_of_source {p q : Program} (hp : ∀ w ∈ p.words, w.Valid) (hq : ∀ w ∈ q.words, w.Valid)
    (h : p.source.text = q.source.text) : p.words = q.words := by
  have htext (p : Program) : p.source.text.toList =
      "#include <stdio.h>\nint main(void)\x7b\n".toList ++ ((declarations p.targets).toList ++
        (p.code.toList ++ "return 0;\n\x7d\n".toList)) := by
    change ("#include <stdio.h>\nint main(void)\x7b\n" ++ declarations p.targets ++
      (p.code ++ "return 0;\n\x7d\n")).toList = _
    simp only [String.toList_append, List.append_assoc]
  have hlists := congrArg String.toList h
  rw [htext, htext] at hlists
  have hlists := List.append_cancel_left hlists
  rw [← List.append_assoc, ← List.append_assoc] at hlists
  have hcode := code_of_declarations hp hq (fun x => isName_of_mem_targets hp)
    (fun x => isName_of_mem_targets hq) (List.append_cancel_right hlists)
  exact (code_append_inj (k := []) (l := []) hp hq nofun nofun (by simpa using hcode)).1

end Program

/-- A text that is compiled has a tree, whose names keep the rules. -/
theorem exists_parses {source : String} {c : CSource} (h : compile source = .ok c) :
    ∃ (ts : List Token) (ws : List Word) (prog : Program), tokenize source = .ok ts ∧
      ts.map Token.word = ws ++ [eofWord] ∧ prog.Parses ws ∧ (∀ w ∈ prog.words, w.Valid) ∧
        Scoped prog.mentions ∧ c = prog.source := by
  obtain ⟨ts, ws, htokens, hws, haccepts⟩ := compile_eq_ok_iff.mp h
  have hvalid := valid_of_tokenize htokens hws
  obtain ⟨prog, hp⟩ := Compilation.parses_of_finishes (finishes_of_accepts haccepts) hvalid
  obtain ⟨hscoped, hc⟩ := (accepts_iff_of_parses hp).mp haccepts
  exact ⟨ts, ws, prog, htokens, hws, hp, fun w hw => hvalid w (words_subset_of_parses hp hw),
    hscoped, hc⟩

/-- The words of the tree are the tokens, up to their layout. -/
theorem exists_tree {source : String} {c : CSource} (h : compile source = .ok c) :
    ∃ (ts : List Token) (prog : Program), tokenize source = .ok ts ∧
      layout (ts.map Token.word) = prog.words ++ [eofWord] ∧
        (∀ w ∈ prog.words, w.Valid) ∧ c = prog.source := by
  obtain ⟨ts, ws, prog, htokens, hws, hp, hvalid, -, hc⟩ := exists_parses h
  exact ⟨ts, prog, htokens, hws ▸ layout_of_parses hp, hvalid, hc⟩

/-- Texts with the same translation differ in their layout alone. -/
theorem layout_eq_of_text_eq {source source' : String} {c c' : CSource}
    (h : compile source = .ok c) (h' : compile source' = .ok c') (htext : c.text = c'.text) :
    ∃ ts ts', tokenize source = .ok ts ∧ tokenize source' = .ok ts' ∧
      layout (ts.map Token.word) = layout (ts'.map Token.word) := by
  obtain ⟨ts, prog, htokens, hlayout, hvalid, rfl⟩ := exists_tree h
  obtain ⟨ts', prog', htokens', hlayout', hvalid', rfl⟩ := exists_tree h'
  have hwords : prog.words = prog'.words := Program.words_of_source hvalid hvalid' htext
  exact ⟨ts, ts', htokens, htokens', by rw [hlayout, hlayout', hwords]⟩

/-- Empty lines and comments leave no trace. -/
theorem layout_eq_of_text_eq_comment : ∃ c ts ts', compile "LET x = 1" = .ok c ∧
    compile "\n\nLET x=1 # one\n\n" = .ok c ∧ tokenize "LET x = 1" = .ok ts ∧
      tokenize "\n\nLET x=1 # one\n\n" = .ok ts' ∧
        layout (ts.map Token.word) = layout (ts'.map Token.word) := by
  let c : CSource :=
    ⟨"#include <stdio.h>\nint main(void)\x7b\nfloat x;\n", "x = 1;\nreturn 0;\n\x7d\n"⟩
  have h : compile "LET x = 1" = .ok c := by cbv
  have h' : compile "\n\nLET x=1 # one\n\n" = .ok c := by cbv
  obtain ⟨ts, ts', hts⟩ := layout_eq_of_text_eq h h' rfl
  exact ⟨c, ts, ts', h, h', hts⟩

end TeenyToC
