import TeenyToC.Proofs.Fragments
import TeenyToC.Proofs.LexicalGrammar

/-! The names that C text mentions, found in the text alone, line by line. A label, a jump and a
declaration each have a line of their own and a fixed text around their name (`nameBetween?`), and
a variable stands where a line assigns to it, reads it or hands it to `scanf` (`variablesOf`). What
is printed as a string is no name, and neither is a word of C. -/

namespace TeenyToC

/-- The last line of a text may be unfinished. -/
def linesOf (text : String) : List (List Char) := text.toList.splitOnP (· = '\n')

/-- The name in a line that is made of a name and the texts before and after it. -/
def nameBetween? (lead trail line : List Char) : Option String :=
  let name := (line.drop lead.length).take (line.length - (lead.length + trail.length))
  if isName name ∧ line = lead ++ name ++ trail then some (String.ofList name) else none

def labelOf? : List Char → Option String := nameBetween? [] ":;".toList

def jumpOf? : List Char → Option String := nameBetween? "goto ".toList ";".toList

def declarationOf? : List Char → Option String := nameBetween? "float ".toList ";".toList

/-- A character that is part of no word. -/
def isMark (c : Char) : Bool := !c.isAlphanum

/-- The words that are not part of a number, in order. -/
def wordsIn (cs : List Char) : List String :=
  ((cs.splitOnP isMark).filter isName).map String.ofList

/-- What a line begins with if variables are read or set in the rest of it. -/
def openings : List (List Char) :=
  ["printf(\"%.2f\\n\", (float)(".toList, "if(1 != scanf(\"%f\", &".toList, "if(".toList,
    "while(".toList]

/-- Whether a line begins with a name and a sign of assignment. -/
def assigns (line : List Char) : Bool :=
  isName (line.takeWhile Char.isAlphanum) &&
    " = ".toList.isPrefixOf (line.dropWhile Char.isAlphanum)

/-- The variables that a line assigns to, reads or has read. -/
def variablesOf (line : List Char) : List String :=
  match openings.find? (·.isPrefixOf line) with
  | some o => wordsIn (line.drop o.length)
  | none => if assigns line then wordsIn line else []

def labelsIn (text : String) : List String := (linesOf text).filterMap labelOf?

def jumpsIn (text : String) : List String := (linesOf text).filterMap jumpOf?

def declarationsIn (text : String) : List String := (linesOf text).filterMap declarationOf?

def variablesIn (text : String) : List String := (linesOf text).flatMap variablesOf

/-- Names are told from the same words in a string, a number or a keyword of C. -/
example :
    let body := "\n".intercalate ["printf(\"goto y;\\n\");", "goto if;", "if:;",
      "if(1 != scanf(\"%f\", &a)) \x7b", "a = 0;", "scanf(\"%*s\");", "\x7d", "while(a1 < 2.5)\x7b",
      "printf(\"%.2f\\n\", (float)(-b));", "\x7d", "c = "]
    labelsIn body = ["if"] ∧ jumpsIn body = ["if"] ∧
      variablesIn body = ["a", "a", "a1", "b", "c"] := by cbv

theorem nameBetween?_eq_some_iff {lead trail line : List Char} {x : String} :
    nameBetween? lead trail line = some x ↔
      isName x.toList ∧ line = lead ++ x.toList ++ trail := by
  unfold nameBetween?
  constructor
  · intro h
    obtain ⟨⟨hname, hline⟩, hx⟩ := Option.ite_none_right_eq_some.mp h
    obtain rfl := Option.some.inj hx
    rw [String.toList_ofList]
    exact ⟨hname, hline⟩
  · rintro ⟨hname, rfl⟩
    have hlength : (lead ++ x.toList ++ trail).length - (lead.length + trail.length) =
        x.toList.length := by
      simp only [List.length_append]
      omega
    have hcut : ((lead ++ x.toList ++ trail).drop lead.length).take x.toList.length = x.toList := by
      rw [List.append_assoc, List.drop_left, List.take_left]
    simp only [hlength, hcut, hname, true_and, if_true, String.ofList_toList]

/-- A character that belongs neither to a name nor to what stands around it. -/
theorem nameBetween?_eq_none {lead trail line : List Char} {c : Char} (hc : c ∈ line)
    (hname : c.isAlphanum = false) (hlead : c ∉ lead) (htrail : c ∉ trail) :
    nameBetween? lead trail line = none := by
  rw [Option.eq_none_iff_forall_ne_some]
  intro x hx
  obtain ⟨hisName, rfl⟩ := nameBetween?_eq_some_iff.mp hx
  simp only [List.mem_append, hlead, htrail, false_or, or_false] at hc
  have halnum := List.all_eq_true.mp (Fragment.isAlphanum_of_isName hisName) c hc
  simp [hname] at halnum

/-- A line that is no label, jump or declaration. -/
structure Unnamed (line : List Char) : Prop where
  label : labelOf? line = none
  jump : jumpOf? line = none
  declaration : declarationOf? line = none

theorem unnamed_of_mem {line : List Char} {c : Char} (hc : c ∈ line)
    (hname : c.isAlphanum = false) (hspecial : c ∉ [' ', ':', ';']) : Unnamed line := by
  simp only [List.mem_cons, List.not_mem_nil, or_false, not_or] at hspecial
  obtain ⟨hblank, hcolon, hend⟩ := hspecial
  have hlead (word : List Char) (hword : word.all Char.isAlphanum) : c ∉ word ++ [' '] := by
    rw [List.mem_append, List.mem_singleton, not_or]
    exact ⟨fun hmem => by simp [List.all_eq_true.mp hword c hmem] at hname, hblank⟩
  exact {
    label := nameBetween?_eq_none hc hname List.not_mem_nil (by simp [hcolon, hend])
    jump := nameBetween?_eq_none hc hname (hlead "goto".toList (by decide)) (by simp [hend])
    declaration :=
      nameBetween?_eq_none hc hname (hlead "float".toList (by decide)) (by simp [hend]) }

theorem labelOf?_label {x : String} (hx : isName x.toList) :
    labelOf? (x.toList ++ ":;".toList) = some x := nameBetween?_eq_some_iff.mpr ⟨hx, rfl⟩

theorem jumpOf?_goto {x : String} (hx : isName x.toList) :
    jumpOf? ("goto ".toList ++ (x.toList ++ ";".toList)) = some x :=
  nameBetween?_eq_some_iff.mpr ⟨hx, (List.append_assoc _ _ _).symm⟩

theorem declarationOf?_float {x : String} (hx : isName x.toList) :
    declarationOf? ("float ".toList ++ (x.toList ++ ";".toList)) = some x :=
  nameBetween?_eq_some_iff.mpr ⟨hx, (List.append_assoc _ _ _).symm⟩

theorem jumpOf?_label (name : List Char) : jumpOf? (name ++ ":;".toList) = none :=
  nameBetween?_eq_none (c := ':') (by simp) (by decide) (by decide) (by decide)

theorem declarationOf?_label (name : List Char) : declarationOf? (name ++ ":;".toList) = none :=
  nameBetween?_eq_none (c := ':') (by simp) (by decide) (by decide) (by decide)

theorem labelOf?_goto (name : List Char) : labelOf? ("goto ".toList ++ name) = none :=
  nameBetween?_eq_none (c := ' ') (by simp) (by decide) (by decide) (by decide)

theorem declarationOf?_goto (name : List Char) :
    declarationOf? ("goto ".toList ++ name) = none := by
  rw [Option.eq_none_iff_forall_ne_some]
  intro x hx
  obtain ⟨-, hline⟩ := nameBetween?_eq_some_iff.mp hx
  simp at hline

/-! Texts are put together from lines. -/

/-- The lines of a text that are finished, and the one that is not. -/
structure Written (text : String) (done : List (List Char)) (last : List Char) : Prop where
  eq : text.toList = done.flatMap (· ++ ['\n']) ++ last
  whole : ∀ line ∈ done, '\n' ∉ line
  unfinished : '\n' ∉ last

namespace Written
variable {text code : String} {done : List (List Char)} {last : List Char}

theorem linesOf_eq (h : Written text done last) : linesOf text = done ++ [last] := by
  have hlast : ∀ c ∈ last, decide (c = '\n') = false := fun c hc =>
    decide_eq_false (ne_of_mem_of_not_mem hc h.unfinished)
  rw [linesOf, h.eq]
  have hwhole := h.whole
  clear h
  induction done with
  | nil => exact List.splitOnP_eq_singleton hlast
  | cons line done ih =>
    obtain ⟨hline, hwhole⟩ := List.forall_mem_cons.mp hwhole
    have hline' : ∀ c ∈ line, decide (c = '\n') = false := fun c hc =>
      decide_eq_false (ne_of_mem_of_not_mem hc hline)
    rw [List.flatMap_cons, List.append_assoc, List.append_assoc, List.singleton_append,
      List.splitOnP_append_cons_of_forall_mem hline' _ (by decide), ih hwhole, List.cons_append]

theorem write (h : Written text done last) (hcode : '\n' ∉ code.toList) :
    Written (text ++ code) done (last ++ code.toList) where
  eq := by rw [String.toList_append, h.eq, List.append_assoc]
  whole := h.whole
  unfinished := by simp [h.unfinished, hcode]

theorem writeLine (h : Written text done last) (hcode : '\n' ∉ code.toList) :
    Written (text ++ (code ++ "\n")) (done ++ [last ++ code.toList]) [] where
  eq := by
    rw [String.toList_append, String.toList_append, h.eq]
    simp
  whole := by
    intro line hline
    rcases List.mem_append.mp hline with hline | hline
    · exact h.whole line hline
    · obtain rfl := List.mem_singleton.mp hline
      simp [h.unfinished, hcode]
  unfinished := List.not_mem_nil

theorem append {top : String} {lines : List (List Char)} (htop : Written top lines [])
    (h : Written text done last) : Written (top ++ text) (lines ++ done) last where
  eq := by
    rw [String.toList_append, htop.eq, h.eq]
    simp
  whole := by
    intro line hline
    exact (List.mem_append.mp hline).elim (htop.whole line) (h.whole line)
  unfinished := h.unfinished

end Written

/-! The words of an expression. -/

section Expressions
variable {cs xs ys : List Char} {c : Char}

@[simp] theorem wordsIn_nil : wordsIn [] = [] := rfl

theorem wordsIn_append_cons (hc : isMark c) :
    wordsIn (xs ++ c :: ys) = wordsIn xs ++ wordsIn ys := by
  rw [wordsIn, List.splitOnP_append_cons xs ys hc, List.filter_append, List.map_append]
  rfl

theorem wordsIn_append_of_all (hys : ys.all isMark) :
    wordsIn (xs ++ ys) = wordsIn xs := by
  induction ys generalizing xs with
  | nil => rw [List.append_nil]
  | cons c ys ih =>
    rw [List.all_cons, Bool.and_eq_true] at hys
    obtain ⟨hc, hys⟩ := hys
    have hnone : wordsIn ([] ++ ys) = [] := ih hys
    rw [List.nil_append] at hnone
    rw [wordsIn_append_cons hc, hnone, List.append_nil]

theorem wordsIn_of_all (h : cs.all Char.isAlphanum) :
    wordsIn cs = if isName cs then [String.ofList cs] else [] := by
  have hsplit : cs.splitOnP isMark = [cs] :=
    List.splitOnP_eq_singleton fun c hc => by simp [isMark, List.all_eq_true.mp h c hc]
  rw [wordsIn, hsplit, List.filter_cons, List.filter_nil]
  split <;> rfl

theorem wordsIn_of_isName (h : isName cs) : wordsIn cs = [String.ofList cs] := by
  rw [wordsIn_of_all (Fragment.isAlphanum_of_isName h), if_pos h]

theorem wordsIn_of_digits (h : cs.all Char.isDigit) : wordsIn cs = [] := by
  have hall : cs.all Char.isAlphanum := by
    rw [List.all_eq_true] at h ⊢
    exact fun c hc => by simp [Char.isAlphanum, h c hc]
  rw [wordsIn_of_all hall, if_neg]
  cases cs with
  | nil => exact Bool.false_ne_true
  | cons c cs =>
    intro hname
    simp only [isName, Bool.and_eq_true] at hname
    simp [isDigit_eq_false_of_isAlpha hname.1] at h

theorem wordsIn_of_isNumeral (h : isNumeral cs) : wordsIn cs = [] := by
  rw [← List.takeWhile_append_dropWhile (p := Char.isDigit) (l := cs)]
  have hwhole : (cs.takeWhile Char.isDigit).all Char.isDigit := List.all_takeWhile
  simp only [isNumeral, Bool.and_eq_true] at h
  split at h
  · next hdrop => rw [hdrop, List.append_nil, wordsIn_of_digits hwhole]
  · next c fs hdrop =>
    simp only [Bool.and_eq_true, decide_eq_true_eq] at h
    obtain ⟨-, ⟨rfl, -⟩, hfs⟩ := h
    rw [hdrop, wordsIn_append_cons (by decide), wordsIn_of_digits hwhole, wordsIn_of_digits hfs]
    rfl

end Expressions

/-! What is read in a line goes by the word it begins with and the character after it. -/

section Lines
variable {w r name formula cs : List Char} {c : Char}

/-- Each opening is a word of C and a parenthesis, with more text behind it in some. -/
theorem exists_of_mem_openings {o : List Char} (ho : o ∈ openings) :
    ∃ word rest, o = word ++ '(' :: rest ∧ word.all Char.isAlphanum := by
  simp only [openings, List.mem_cons, List.not_mem_nil, or_false] at ho
  rcases ho with rfl | rfl | rfl | rfl
  · exact ⟨"printf".toList, _, rfl, by decide⟩
  · exact ⟨"if".toList, _, rfl, by decide⟩
  · exact ⟨"if".toList, _, rfl, by decide⟩
  · exact ⟨"while".toList, _, rfl, by decide⟩

theorem find?_openings_eq_none (hw : w.all Char.isAlphanum) (hc : c.isAlphanum = false)
    (hparen : c ≠ '(') : openings.find? (·.isPrefixOf (w ++ c :: r)) = none := by
  rw [List.find?_eq_none]
  intro o ho hprefix
  obtain ⟨word, rest, rfl, hword⟩ := exists_of_mem_openings ho
  obtain ⟨s, hs⟩ := List.isPrefixOf_iff_prefix.mp hprefix
  rw [List.append_assoc] at hs
  have hcut := (append_cons_inj hword hw (by decide) hc hs).2
  exact hparen (List.cons.inj hcut).1.symm

theorem variablesOf_of_find? {o : List Char} (h : openings.find? (·.isPrefixOf (o ++ r)) = some o) :
    variablesOf (o ++ r) = wordsIn r := by
  simp only [variablesOf, h, List.drop_left]

theorem assigns_eq (hw : w.all Char.isAlphanum) (hc : c.isAlphanum = false) :
    assigns (w ++ c :: r) = (isName w && " = ".toList.isPrefixOf (c :: r)) := by
  have hw : ∀ c ∈ w, c.isAlphanum := List.all_eq_true.mp hw
  rw [assigns, takeWhile_append_cons hw hc, dropWhile_append_cons hw hc]

theorem assigns_assign (hname : isName name) (r : List Char) :
    assigns (name ++ (" = ".toList ++ r)) = true := by
  have heq : assigns (name ++ ' ' :: ("= ".toList ++ r)) = _ :=
    assigns_eq (Fragment.isAlphanum_of_isName hname) (by decide)
  exact heq.trans (by simp [hname])

theorem find?_assign (hname : isName name) (r : List Char) :
    openings.find? (·.isPrefixOf (name ++ (" = ".toList ++ r))) = none :=
  find?_openings_eq_none (r := "= ".toList ++ r) (Fragment.isAlphanum_of_isName hname) (by decide)
    (by decide)

theorem variablesOf_assign (hname : isName name) (r : List Char) :
    variablesOf (name ++ (" = ".toList ++ r)) = String.ofList name :: wordsIn r := by
  have hwords : wordsIn (name ++ (" = ".toList ++ r)) = String.ofList name :: wordsIn r := by
    have hsign : " = ".toList ++ r = ' ' :: '=' :: ' ' :: r := rfl
    have hrest : wordsIn (['='] ++ ' ' :: r) = wordsIn r := wordsIn_append_cons (by decide)
    rw [hsign, wordsIn_append_cons (by decide), wordsIn_of_isName hname]
    exact congrArg (String.ofList name :: ·) hrest
  rw [variablesOf, find?_assign hname r, assigns_assign hname r]
  exact hwords

theorem find?_print (r : List Char) :
    openings.find? (·.isPrefixOf ("printf(\"%.2f\\n\", (float)(".toList ++ r)) =
      some "printf(\"%.2f\\n\", (float)(".toList :=
  List.find?_cons_of_pos (List.isPrefixOf_iff_prefix.mpr (List.prefix_append _ r))

theorem find?_scan (r : List Char) :
    openings.find? (·.isPrefixOf ("if(1 != scanf(\"%f\", &".toList ++ r)) =
      some "if(1 != scanf(\"%f\", &".toList := by
  rw [openings, List.find?_cons_of_neg (by simp), List.find?_cons_of_pos]
  exact List.isPrefixOf_iff_prefix.mpr (List.prefix_append _ r)

theorem find?_head (b : Block) (hr : '(' ∉ r) :
    openings.find? (·.isPrefixOf (b.opening.toList ++ r)) = some b.opening.toList := by
  have hscan : ¬"1 != scanf(\"%f\", &".toList <+: r := by
    rintro ⟨s, rfl⟩
    simp at hr
  cases b with
  | cond =>
    change openings.find? (·.isPrefixOf ("if(".toList ++ r)) = some "if(".toList
    rw [openings, List.find?_cons_of_neg (by simp), List.find?_cons_of_neg (by simpa using hscan),
      List.find?_cons_of_pos]
    exact List.isPrefixOf_iff_prefix.mpr (List.prefix_append _ r)
  | loop =>
    change openings.find? (·.isPrefixOf ("while(".toList ++ r)) = some "while(".toList
    rw [openings, List.find?_cons_of_neg (by simp), List.find?_cons_of_neg (by simp),
      List.find?_cons_of_neg (by simp), List.find?_cons_of_pos]
    exact List.isPrefixOf_iff_prefix.mpr (List.prefix_append _ r)

theorem variablesOf_print (r : List Char) :
    variablesOf ("printf(\"%.2f\\n\", (float)(".toList ++ r) = wordsIn r :=
  variablesOf_of_find? (find?_print r)

theorem variablesOf_scan (r : List Char) :
    variablesOf ("if(1 != scanf(\"%f\", &".toList ++ r) = wordsIn r :=
  variablesOf_of_find? (find?_scan r)

theorem variablesOf_head (b : Block) (hr : '(' ∉ r) :
    variablesOf (b.opening.toList ++ r) = wordsIn r := variablesOf_of_find? (find?_head b hr)

/-- A line that is neither of these has no variables, whatever word it begins with. -/
theorem variablesOf_eq_nil (hw : w.all Char.isAlphanum) (hc : c.isAlphanum = false)
    (hparen : c ≠ '(') (hassigns : " = ".toList.isPrefixOf (c :: r) = false) :
    variablesOf (w ++ c :: r) = [] := by
  have hnone : assigns (w ++ c :: r) = false := by
    rw [assigns_eq hw hc, hassigns, Bool.and_false]
  simp only [variablesOf, find?_openings_eq_none hw hc hparen, hnone, Bool.false_eq_true, if_false]

theorem variablesOf_label (hname : isName name) : variablesOf (name ++ ":;".toList) = [] :=
  variablesOf_eq_nil (r := [';']) (Fragment.isAlphanum_of_isName hname) (by decide) (by decide)
    (by decide)

theorem variablesOf_goto (hname : isName name) :
    variablesOf ("goto ".toList ++ (name ++ ";".toList)) = [] := by
  have hassigns : " = ".toList.isPrefixOf (' ' :: (name ++ ";".toList)) = false := by
    have hhead := Fragment.head?_ne_of_isName hname ";".toList
    cases name with
    | nil => cases hname
    | cons c cs =>
      have hc : '=' ≠ c := by simpa [eq_comm] using hhead
      rw [Bool.eq_false_iff, Ne, List.isPrefixOf_iff_prefix]
      simp [hc]
  exact variablesOf_eq_nil (w := "goto".toList) (by decide) (by decide) (by decide) hassigns

theorem find?_text (hcs : cs.all isStringPart) :
    openings.find? (·.isPrefixOf ("printf(\"".toList ++ (cs ++ "\\n\");".toList))) = none := by
  have hpercent : ¬"%.2f\\n\", (float)(".toList <+: cs ++ "\\n\");".toList := by
    cases cs with
    | nil => simp
    | cons c cs =>
      intro h
      obtain rfl : '%' = c := by simpa using And.left (by simpa using h)
      simp [isStringPart, isIllegal] at hcs
  rw [openings, List.find?_cons_of_neg (by simpa using hpercent),
    List.find?_cons_of_neg (by simp), List.find?_cons_of_neg (by simp),
    List.find?_cons_of_neg (by simp), List.find?_nil]

theorem assigns_text (cs : List Char) :
    assigns ("printf(\"".toList ++ (cs ++ "\\n\");".toList)) = false := by
  have heq : assigns ("printf".toList ++ '(' :: '"' :: (cs ++ "\\n\");".toList)) = _ :=
    assigns_eq (by decide) (by decide)
  exact heq.trans rfl

theorem variablesOf_text (hcs : cs.all isStringPart) :
    variablesOf ("printf(\"".toList ++ (cs ++ "\\n\");".toList)) = [] := by
  simp only [variablesOf, find?_text hcs, assigns_text, Bool.false_eq_true, if_false]

end Lines

end TeenyToC
