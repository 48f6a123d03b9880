import TeenyToC.Proofs.LexicalGrammar
import TeenyToC.Proofs.Spelling

/-! Expressions as C reads their characters. C takes the longest token that it can, whatever stands
around it, and what it cuts an expression into are the words of the program (`Cut.cuts`): blanks
keep operators and operands apart, and a sign, which has none behind it, is never followed by
another mark. -/

namespace TeenyToC

def isWordChar (c : Char) : Bool := c.isAlphanum || c = '_'

/-- A name in C. Keywords have the same form, and are not told apart here. -/
def isCName : List Char → Bool
  | [] => false
  | c :: r => !c.isDigit && (c :: r).all isWordChar

/-- What a preprocessing number goes on with: after an exponent letter also with a sign. -/
def goesOn (previous : Char) : List Char → Bool
  | [] => true
  | c :: r => (isWordChar c || c = '.' || c ∈ ['+', '-'] && previous ∈ ['e', 'E', 'p', 'P']) &&
      goesOn c r

/-- A preprocessing number, which is more than the constants that C has. -/
def isCNumber : List Char → Bool
  | '.' :: c :: r => c.isDigit && goesOn c r
  | c :: r => c.isDigit && goesOn c r
  | [] => false

/-- The punctuators, and what opens a comment. -/
def marks : List (List Char) :=
  ["[", "]", "(", ")", "\x7b", "\x7d", ".", "->", "++", "--", "&", "*", "+", "-", "~", "!", "/",
    "%", "<<", ">>", "<", ">", "<=", ">=", "==", "!=", "^", "|", "&&", "||", "?", ":", ";", "...",
    "=", "*=", "/=", "%=", "+=", "-=", "<<=", ">>=", "&=", "^=", "|=", ",", "#", "##", "<:", ":>",
    "<%", "%>", "%:", "%:%:", "//", "/*"].map String.toList

/-- A token of C, literals in quotes left out. -/
def isCToken (cs : List Char) : Bool := isCName cs || isCNumber cs || cs ∈ marks

/-- The first tokens of a text, each the longest behind the white space, and what is left. -/
inductive Cuts : List Char → List (List Char) → List Char → Prop where
  | nil (r : List Char) : Cuts r [] r
  | cons {blanks p m r : List Char} {ps : List (List Char)} : blanks.all Char.isWhitespace →
      LongestPrefix (isCToken ·) p (p ++ m) → Cuts m ps r → Cuts (blanks ++ (p ++ m)) (p :: ps) r

/-- What stands behind an expression in a statement. -/
def Delimited (r : List Char) : Prop := ∀ c ∈ r.head?, c ∈ [' ', ')', ';']

def texts (ws : List Word) : List (List Char) := ws.map fun w => w.2.toList

section
variable {c : Char} {cs p q m r : List Char} {ps qs : List (List Char)}

theorem Cuts.append (h : Cuts cs ps m) (h' : Cuts m qs r) : Cuts cs (ps ++ qs) r := by
  induction h with
  | nil => exact h'
  | cons hblanks hp _ ih => exact .cons hblanks hp (ih h')

theorem Cuts.token (hp : LongestPrefix (isCToken ·) p (p ++ m)) (h : Cuts m ps r) :
    Cuts (p ++ m) (p :: ps) r := by
  have hblanks : ([] : List Char).all Char.isWhitespace := rfl
  exact .cons hblanks hp h

theorem Cuts.blank (h : Cuts cs (p :: ps) r) : Cuts (' ' :: cs) (p :: ps) r := by
  cases h with
  | @cons blanks p m _ _ hblanks hp h =>
    have hblanks' : (' ' :: blanks).all Char.isWhitespace := by simpa using hblanks
    exact .cons hblanks' hp h

/-- A token is the longest if no token has the next character as well. -/
theorem longestPrefix_of_head (hp : isCToken p)
    (h : ∀ c ∈ m.head?, ∀ q, isCToken (p ++ c :: q) = false) :
    LongestPrefix (isCToken ·) p (p ++ m) where
  mem := hp
  isPrefix := List.prefix_append p m
  longest q hq hprefix := by
    by_contra hlt
    obtain ⟨k, rfl⟩ :=
      List.prefix_of_prefix_length_le (List.prefix_append p m) hprefix (by omega)
    cases k with
    | nil => simp at hlt
    | cons c k =>
      obtain ⟨m', rfl⟩ := (List.prefix_append_right_inj p).mp hprefix
      rw [h c rfl k] at hq
      cases hq

theorem head_of_mem_marks (h : p ∈ marks) : ∃ c r, p = c :: r ∧ c.isAlphanum = false ∧
    c.isWhitespace = false ∧ ∀ d ∈ r.head?, d.isAlphanum = false ∧ d ≠ ' ' := by
  have hall : ∀ p ∈ marks, p ≠ [] ∧ (p.head?.all fun c => !c.isAlphanum && !c.isWhitespace) ∧
      p.tail.head?.all fun d => !d.isAlphanum && d ≠ ' ' := by decide
  obtain ⟨hne, hhead, htail⟩ := hall p h
  obtain ⟨c, r, rfl⟩ := List.exists_cons_of_ne_nil hne
  obtain ⟨hc, hblank⟩ : c.isAlphanum = false ∧ c.isWhitespace = false := by simpa using hhead
  refine ⟨c, r, rfl, hc, hblank, fun d hd => ?_⟩
  rw [List.tail_cons, Option.mem_def.mp hd] at htail
  simpa using htail

theorem not_mem_marks (hc : c.isAlphanum) : c :: cs ∉ marks := fun hmem => by
  obtain ⟨d, r, heq, hd, -⟩ := head_of_mem_marks hmem
  cases heq
  simp [hc] at hd

theorem isCToken_eq_false_iff :
    isCToken cs = false ↔ isCName cs = false ∧ isCNumber cs = false ∧ cs ∉ marks := by
  simp [isCToken, and_assoc]

theorem goesOn_of_all {d : Char} (h : ∀ c ∈ cs, isWordChar c ∨ c = '.') : goesOn d cs := by
  induction cs generalizing d with
  | nil => rfl
  | cons c cs ih =>
    obtain ⟨hc, hcs⟩ := List.forall_mem_cons.mp h
    rw [goesOn, Bool.and_eq_true]
    refine ⟨?_, ih hcs⟩
    rcases hc with hc | rfl
    · simp [hc]
    · rfl

theorem goesOn_append_cons {d : Char} (h : goesOn d (cs ++ c :: r)) :
    isWordChar c ∨ c = '.' ∨ c = '+' ∨ c = '-' := by
  induction cs generalizing d with
  | nil =>
    simp only [List.nil_append, goesOn, Bool.and_eq_true, Bool.or_eq_true, decide_eq_true_eq,
      List.mem_cons, List.not_mem_nil, or_false] at h
    rcases h with ⟨(h | h) | ⟨h | h, -⟩, -⟩ <;> simp [h]
  | cons b cs ih =>
    rw [List.cons_append, goesOn, Bool.and_eq_true] at h
    exact ih h.2

theorem exists_cons_of_isName (h : isName p) : ∃ c r, p = c :: r ∧ c.isAlpha := by
  cases p with
  | nil => cases h
  | cons c r => exact ⟨c, r, rfl, ((Bool.and_eq_true _ _).mp h).1⟩

theorem exists_cons_of_isNumeral (h : isNumeral p) : ∃ c r, p = c :: r ∧ c.isDigit := by
  cases p with
  | nil => cases h
  | cons c r => exact ⟨c, r, rfl, isDigit_of_isNumeral h⟩

theorem isCName_of_isName (h : isName p) : isCName p := by
  obtain ⟨c, r, rfl, hc⟩ := exists_cons_of_isName h
  have hr := ((Bool.and_eq_true _ _).mp h).2
  have hall : (c :: r).all isWordChar := by
    rw [List.all_eq_true] at hr ⊢
    intro d hd
    rcases List.mem_cons.mp hd with rfl | hd
    · simp [isWordChar, Char.isAlphanum, hc]
    · simp [isWordChar, hr d hd]
  rw [isCName, isDigit_eq_false_of_isAlpha hc, hall]
  rfl

/-- A name ends in front of what is no letter, digit or underscore. -/
theorem isCToken_name_append (h : isName p) (hc : isWordChar c = false) :
    isCToken (p ++ c :: q) = false := by
  obtain ⟨d, r, rfl, hd⟩ := exists_cons_of_isName h
  have hdigit := isDigit_eq_false_of_isAlpha hd
  have hpoint : d ≠ '.' := ne_of_isAlpha hd rfl
  have hname : isCName (d :: r ++ c :: q) = false := by
    simp [isCName, hc]
  have hnumber : isCNumber (d :: r ++ c :: q) = false := by
    simp [isCNumber, hdigit, hpoint]
  have hletter : d.isAlphanum := by simp [Char.isAlphanum, hd]
  exact isCToken_eq_false_iff.mpr ⟨hname, hnumber, not_mem_marks hletter⟩

theorem isDigit_or_of_isNumeral (h : isNumeral cs) : ∀ c ∈ cs, c.isDigit ∨ c = '.' := by
  have hwhole : ∀ c ∈ cs.takeWhile Char.isDigit, c.isDigit :=
    List.all_eq_true.mp List.all_takeWhile
  simp only [isNumeral, Bool.and_eq_true] at h
  intro c hc
  rw [← List.takeWhile_append_dropWhile (p := Char.isDigit) (l := cs), List.mem_append] at hc
  rcases hc with hc | hc
  · exact .inl (hwhole c hc)
  · split at h
    · next heq =>
      rw [heq] at hc
      cases hc
    · next d r heq =>
      simp only [Bool.and_eq_true, decide_eq_true_eq, List.all_eq_true] at h
      rw [heq] at hc
      rcases List.mem_cons.mp hc with rfl | hc
      · exact .inr h.2.1.1
      · exact .inl (h.2.2 c hc)

theorem isCNumber_of_isNumeral (h : isNumeral p) : isCNumber p := by
  obtain ⟨c, r, rfl, hc⟩ := exists_cons_of_isNumeral h
  have hpoint : c ≠ '.' := ne_of_isDigit hc rfl
  have hr : goesOn c r := goesOn_of_all fun d hd => by
    rcases isDigit_or_of_isNumeral h d (List.mem_cons_of_mem c hd) with hd | hd
    · exact .inl (by simp [isWordChar, Char.isAlphanum, hd])
    · exact .inr hd
  simp [isCNumber, hc, hpoint, hr]

/-- A number ends in front of the same characters, as long as there is no sign or point. -/
theorem isCToken_numeral_append (h : isNumeral p) (hc : isWordChar c = false) (hpoint : c ≠ '.')
    (hplus : c ≠ '+') (hminus : c ≠ '-') : isCToken (p ++ c :: q) = false := by
  obtain ⟨d, r, rfl, hd⟩ := exists_cons_of_isNumeral h
  have hname : isCName (d :: r ++ c :: q) = false := by
    simp [isCName, hd]
  have hnumber : isCNumber (d :: r ++ c :: q) = false := by
    have hd' : d ≠ '.' := ne_of_isDigit hd rfl
    have hgoes : goesOn d (r ++ c :: q) = false := Bool.eq_false_iff.mpr fun hgoes => by
      rcases goesOn_append_cons hgoes with hword | hmark
      · simp [hc] at hword
      · simp [hpoint, hplus, hminus] at hmark
    simp [isCNumber, hd', hgoes]
  have hletter : d.isAlphanum := by simp [Char.isAlphanum, hd]
  exact isCToken_eq_false_iff.mpr ⟨hname, hnumber, not_mem_marks hletter⟩

/-- A mark of one character ends in front of blanks, letters and digits. -/
theorem isCToken_mark_append {d : Char} (hword : isWordChar d = false) (hpoint : d ≠ '.')
    (hc : c.isAlphanum ∨ c = ' ') : isCToken ([d] ++ c :: q) = false := by
  have hname : isCName (d :: c :: q) = false := by
    simp [isCName, hword]
  have hnumber : isCNumber (d :: c :: q) = false := by
    have hdigit : d.isDigit = false := Bool.eq_false_iff.mpr fun hdigit => by
      simp [isWordChar, Char.isAlphanum, hdigit] at hword
    simp [isCNumber, hpoint, hdigit]
  have hmark : d :: c :: q ∉ marks := fun hmem => by
    obtain ⟨d', r', heq, -, -, hnext⟩ := head_of_mem_marks hmem
    cases heq
    obtain ⟨hletter, hblank⟩ := hnext c rfl
    rcases hc with hc | hc
    · simp [hletter] at hc
    · exact hblank hc
  exact isCToken_eq_false_iff.mpr ⟨hname, hnumber, hmark⟩

theorem exists_cons_of_isCToken (h : isCToken p) :
    ∃ c r, p = c :: r ∧ c.isWhitespace = false := by
  cases p with
  | nil => cases h
  | cons c r =>
    refine ⟨c, r, rfl, Bool.eq_false_iff.mpr fun hblank => ?_⟩
    have hname : isCName (c :: r) = false ∧ isCNumber (c :: r) = false := by
      simp only [Char.isWhitespace, Bool.or_eq_true, decide_eq_true_eq] at hblank
      rcases hblank with ((rfl | rfl) | rfl) | rfl <;> exact ⟨rfl, rfl⟩
    have hmark : c :: r ∉ marks := fun hmem => by
      obtain ⟨d, r', heq, -, hd, -⟩ := head_of_mem_marks hmem
      cases heq
      simp [hblank] at hd
    rw [isCToken_eq_false_iff.mpr ⟨hname.1, hname.2, hmark⟩] at h
    cases h

theorem Cuts.length_le (h : Cuts cs ps r) : r.length + ps.length ≤ cs.length := by
  induction h with
  | nil => simp
  | cons _ hp _ ih =>
    obtain ⟨c, p, rfl, -⟩ := exists_cons_of_isCToken hp.mem
    simp only [List.length_append, List.length_cons]
    omega

/-- There is one way to cut a text in front of a given rest. -/
theorem Cuts.unique (h : Cuts cs ps r) (h' : Cuts cs qs r) : ps = qs := by
  induction h generalizing qs with
  | nil r =>
    have hlength := h'.length_le
    cases qs with
    | nil => rfl
    | cons q qs =>
      simp only [List.length_cons] at hlength
      omega
  | @cons blanks p m r ps hblanks hp h ih =>
    obtain ⟨c, k, rfl, hc⟩ := exists_cons_of_isCToken hp.mem
    generalize hcs : blanks ++ (c :: k ++ m) = cs at h'
    cases h' with
    | nil =>
      have hlength := h.length_le
      rw [← hcs] at hlength
      simp only [List.length_append, List.length_cons] at hlength
      omega
    | @cons blanks' p' m' _ ps' hblanks' hp' h' =>
      obtain ⟨c', k', rfl, hc'⟩ := exists_cons_of_isCToken hp'.mem
      have hleft : (blanks ++ (c :: k ++ m)).takeWhile Char.isWhitespace = blanks :=
        takeWhile_append_cons (List.all_eq_true.mp hblanks) hc
      have hright : (blanks' ++ (c' :: k' ++ m')).takeWhile Char.isWhitespace = blanks' :=
        takeWhile_append_cons (List.all_eq_true.mp hblanks') hc'
      obtain rfl : blanks = blanks' := by rw [← hleft, hcs, hright]
      have hrest := List.append_cancel_left hcs
      have htoken : c :: k = c' :: k' := (hrest ▸ hp).unique hp'
      rw [htoken] at hrest ⊢
      obtain rfl := List.append_cancel_left hrest
      rw [ih h']

/-! What an expression is cut into. -/

/-- The code of each item is cut into the words of the item, if it ends as expressions do. -/
structure Cut {α : Type} (words : α → List Word) (code : α → String) : Prop where
  ne_nil : ∀ a, words a ≠ []
  cuts : ∀ (a : α) (r : List Char), (∀ w ∈ words a, w.Valid) → Delimited r →
    Cuts ((code a).toList ++ r) (texts (words a)) r

theorem Delimited.cons (hc : c ∈ [' ', ')', ';']) (r : List Char) : Delimited (c :: r) := by
  intro d hd
  obtain rfl : c = d := by simpa using hd
  exact hc

theorem name_or_number {o : Operand} (ho : o.word.Valid) :
    isCName o.code.toList ∨ isCNumber o.code.toList := by
  cases o with
  | number digits => exact .inr (isCNumber_of_isNumeral (isNumeral_of_valid ho))
  | name x => exact .inl (isCName_of_isName (isName_of_valid ho))

theorem cuts_operand {o : Operand} (ho : o.word.Valid) (hr : Delimited r) :
    Cuts (o.code.toList ++ r) (texts [o.word]) r := by
  have hmarks : ∀ c ∈ [' ', ')', ';'], isWordChar c = false ∧ c ≠ '.' ∧ c ≠ '+' ∧ c ≠ '-' := by
    intro c hc
    simp only [List.mem_cons, List.not_mem_nil, or_false] at hc
    rcases hc with rfl | rfl | rfl <;> decide
  have htexts : texts [o.word] = [o.code.toList] := by cases o <;> rfl
  rw [htexts]
  refine .token (longestPrefix_of_head ?_ fun c hc q => ?_) (.nil r)
  · rcases name_or_number ho with h | h <;> simp [isCToken, h]
  · obtain ⟨hword, hpoint, hplus, hminus⟩ := hmarks c (hr c hc)
    cases o with
    | number digits =>
      exact isCToken_numeral_append (isNumeral_of_valid ho) hword hpoint hplus hminus
    | name x => exact isCToken_name_append (isName_of_valid ho) hword

/-- The marks that are written between operands and in front of them. -/
def IsOperatorSymbol (symbol : String) : Prop :=
  ∃ d, symbol.toList = [d] ∧ [d] ∈ marks ∧ isWordChar d = false ∧ d ≠ '.'

theorem longestPrefix_symbol {symbol : String} (h : IsOperatorSymbol symbol)
    (hm : ∀ c ∈ m.head?, c.isAlphanum ∨ c = ' ') :
    LongestPrefix (isCToken ·) symbol.toList (symbol.toList ++ m) := by
  obtain ⟨d, hd, hmark, hword, hpoint⟩ := h
  rw [hd]
  refine longestPrefix_of_head (by simp [isCToken, hmark]) fun c hc q => ?_
  exact isCToken_mark_append hword hpoint (hm c hc)

theorem Additive.isOperatorSymbol (op : Additive) : IsOperatorSymbol op.symbol := by
  cases op <;> exact ⟨_, rfl, by decide, by decide, by decide⟩

theorem Multiplicative.isOperatorSymbol (op : Multiplicative) : IsOperatorSymbol op.symbol := by
  cases op <;> exact ⟨_, rfl, by decide, by decide, by decide⟩

theorem head_of_operand {o : Operand} (ho : o.word.Valid) :
    ∃ c cs, o.code.toList = c :: cs ∧ c.isAlphanum := by
  cases o with
  | number digits =>
    obtain ⟨c, cs, hcs, hc⟩ := exists_cons_of_isNumeral (isNumeral_of_valid ho)
    exact ⟨c, cs, hcs, by simp [Char.isAlphanum, hc]⟩
  | name x =>
    obtain ⟨c, cs, hcs, hc⟩ := exists_cons_of_isName (isName_of_valid ho)
    exact ⟨c, cs, hcs, by simp [Char.isAlphanum, hc]⟩

theorem cut_factor : Cut Factor.words Factor.code where
  ne_nil f := by
    obtain ⟨w, ws, h, -⟩ := f.words_eq_cons
    simp [h]
  cuts f r hf hr := by
    obtain ⟨sign, o⟩ := f
    obtain ⟨-, ho⟩ := List.forall_mem_append.mp hf
    have ho := List.forall_mem_singleton.mp ho
    have hoperand := cuts_operand ho hr
    cases sign with
    | none =>
      have hcode : (⟨none, o⟩ : Factor).code = o.code := String.empty_append
      rw [hcode]
      exact hoperand
    | some op =>
      have hcode : (⟨some op, o⟩ : Factor).code = op.symbol ++ o.code := rfl
      rw [hcode, String.toList_append, List.append_assoc]
      refine .token (longestPrefix_symbol op.isOperatorSymbol fun c hc => .inl ?_) hoperand
      obtain ⟨d, ds, hd, hletter⟩ := head_of_operand ho
      rw [hd] at hc
      cases hc
      exact hletter

section Chains
variable {ω α : Type} {op : ω → Word} {opCode : ω → String} {item : α → List Word}
  {itemCode : α → String}

theorem texts_append (us ws : List Word) : texts (us ++ ws) = texts us ++ texts ws :=
  List.map_append

theorem texts_link (hop : ∀ o, (op o).2 = opCode o) (o : ω) (a : α) (links : List (ω × α)) :
    texts (Chain.restWords op item ((o, a) :: links)) =
      (opCode o).toList :: (texts (item a) ++ texts (Chain.restWords op item links)) := by
  rw [Chain.restWords_cons, ← hop o, ← texts_append]
  rfl

theorem Cut.cuts_blank (h : Cut item itemCode) {a : α} (ha : ∀ w ∈ item a, w.Valid)
    (hr : Delimited r) : Cuts (' ' :: ((itemCode a).toList ++ r)) (texts (item a)) r := by
  have hcuts := h.cuts a r ha hr
  obtain ⟨w, us, hus⟩ := List.exists_cons_of_ne_nil (h.ne_nil a)
  rw [hus] at hcuts ⊢
  exact hcuts.blank

/-- Every link begins with a blank, so what stands before it is at its end. -/
theorem Cut.cuts_rest (h : Cut item itemCode)
    (hop : ∀ o, (op o).2 = opCode o ∧ IsOperatorSymbol (opCode o)) {links : List (ω × α)}
    (hlinks : ∀ w ∈ Chain.restWords op item links, w.Valid) (hr : Delimited r) :
    Delimited ((Chain.restCode opCode itemCode links).toList ++ r) ∧
      Cuts ((Chain.restCode opCode itemCode links).toList ++ r)
        (texts (Chain.restWords op item links)) r := by
  induction links with
  | nil => exact ⟨hr, .nil r⟩
  | cons link links ih =>
    obtain ⟨o, a⟩ := link
    rw [Chain.restWords_cons, List.forall_mem_cons, List.forall_mem_append] at hlinks
    obtain ⟨hend, hcuts⟩ := ih hlinks.2.2
    have ha := h.cuts_blank hlinks.2.1 hend
    have hblank : ∀ c ∈ (' ' :: ((itemCode a).toList ++
        ((Chain.restCode opCode itemCode links).toList ++ r))).head?, c.isAlphanum ∨ c = ' ' := by
      simp
    have hlink := (Cuts.token (longestPrefix_symbol (hop o).2 hblank) (ha.append hcuts)).blank
    rw [toList_restCode_cons, texts_link fun o => (hop o).1]
    refine ⟨.cons (by simp) _, ?_⟩
    simpa using hlink

theorem Cut.chain (h : Cut item itemCode)
    (hop : ∀ o, (op o).2 = opCode o ∧ IsOperatorSymbol (opCode o)) :
    Cut (Chain.words op item) (Chain.code opCode itemCode) where
  ne_nil c := by
    have hne := h.ne_nil c.first
    simp [Chain.words, hne]
  cuts c r hc hr := by
    obtain ⟨hfirst, hlinks⟩ := List.forall_mem_append.mp hc
    obtain ⟨hend, hcuts⟩ := h.cuts_rest hop hlinks hr
    rw [Chain.code_eq, String.toList_append, List.append_assoc, Chain.words_eq, texts_append]
    exact (h.cuts c.first _ hfirst hend).append hcuts

end Chains

theorem cut_expression : Cut Expression.words Expression.code :=
  (cut_factor.chain fun op => ⟨rfl, op.isOperatorSymbol⟩).chain fun op =>
    ⟨rfl, op.isOperatorSymbol⟩

end

end TeenyToC
