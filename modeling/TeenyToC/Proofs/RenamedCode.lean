import TeenyToC.Proofs.Decoding
import TeenyToC.Proofs.Renaming
import TeenyToC.Proofs.Tables

/-! Names changed in C text. They are found in the text alone, line by line, as the names of a
program are (`CodeLines`), so what a string holds stays as it is. The text of a program with other
names is its text with those names in it (`code_source`), because each line of the one comes from a
line of the other. -/

namespace TeenyToC

/-- A whole word that is a name is replaced. -/
def renameWord (f : String → String) (w : List Char) : List Char :=
  if isName w then (f (String.ofList w)).toList else w

/-- The names in some characters replaced. The first word has begun with `word`. -/
def renameWordsFrom (f : String → String) (word : List Char) : List Char → List Char
  | [] => renameWord f word
  | c :: cs =>
    if isMark c then renameWord f word ++ c :: renameWordsFrom f [] cs
    else renameWordsFrom f (word ++ [c]) cs

def renameWords (f : String → String) (cs : List Char) : List Char := renameWordsFrom f [] cs

namespace Renaming

/-- A line of C text with other names. -/
def line (ρ : Renaming) (cs : List Char) : List Char :=
  match declarationOf? cs, labelOf? cs, jumpOf? cs with
  | some x, _, _ => "float ".toList ++ ((ρ.ofVariable x).toList ++ ";".toList)
  | none, some x, _ => (ρ.ofLabel x).toList ++ ":;".toList
  | none, none, some x => "goto ".toList ++ ((ρ.ofLabel x).toList ++ ";".toList)
  | none, none, none =>
    match openings.find? (·.isPrefixOf cs) with
    | some o => o ++ renameWords ρ.ofVariable (cs.drop o.length)
    | none => if assigns cs then renameWords ρ.ofVariable cs else cs

def code (ρ : Renaming) (text : String) : String :=
  String.ofList (['\n'].intercalate ((linesOf text).map ρ.line))

end Renaming

/-- A label and a variable of one name, and the same name in a string. -/
example :
    let ρ : Renaming := ⟨fun x => x ++ "1", fun x => x ++ "2"⟩
    ρ.code ("\n".intercalate ["float x;", "x:;", "printf(\"x:;\\n\");", "goto x;", "x = -x + 2.5;",
      "if(1 != scanf(\"%f\", &x)) \x7b", "\x7d", "while(x < 1)\x7b"]) =
        "\n".intercalate ["float x1;", "x2:;", "printf(\"x:;\\n\");", "goto x2;", "x1 = -x1 + 2.5;",
          "if(1 != scanf(\"%f\", &x1)) \x7b", "\x7d", "while(x1 < 1)\x7b"] := by cbv

section Words
variable {f : String → String} {cs xs ys word : List Char} {c : Char}

theorem renameWordsFrom_append_cons (hc : isMark c) : renameWordsFrom f word (xs ++ c :: ys) =
    renameWordsFrom f word xs ++ c :: renameWords f ys := by
  induction xs generalizing word with
  | nil => simp [renameWordsFrom, renameWords, hc]
  | cons x xs ih =>
    by_cases hx : isMark x <;> simp [renameWordsFrom, hx, ih]

theorem renameWords_append_cons (hc : isMark c) :
    renameWords f (xs ++ c :: ys) = renameWords f xs ++ c :: renameWords f ys :=
  renameWordsFrom_append_cons hc

theorem renameWords_cons (hc : isMark c) : renameWords f (c :: ys) = c :: renameWords f ys :=
  (renameWords_append_cons hc : renameWords f ([] ++ c :: ys) = _)

theorem renameWords_append_of_all (hys : ys.all isMark) :
    renameWords f (xs ++ ys) = renameWords f xs ++ ys := by
  induction ys generalizing xs with
  | nil => rw [List.append_nil, List.append_nil]
  | cons c ys ih =>
    rw [List.all_cons, Bool.and_eq_true] at hys
    obtain ⟨hc, hys⟩ := hys
    have hmarks : renameWords f ([] ++ ys) = ys := ih hys
    rw [renameWords_append_cons hc]
    exact congrArg (_ ++ c :: ·) hmarks

theorem renameWords_of_marks (hys : ys.all isMark) : renameWords f ys = ys :=
  (renameWords_append_of_all hys : renameWords f ([] ++ ys) = _)

theorem renameWordsFrom_of_all (h : cs.all Char.isAlphanum) :
    renameWordsFrom f word cs = renameWord f (word ++ cs) := by
  induction cs generalizing word with
  | nil => rw [List.append_nil, renameWordsFrom]
  | cons c cs ih =>
    rw [List.all_cons, Bool.and_eq_true] at h
    obtain ⟨hc, hcs⟩ := h
    have hmark : isMark c = false := by simp [isMark, hc]
    rw [renameWordsFrom, hmark, if_neg Bool.false_ne_true, ih hcs, List.append_assoc]
    rfl

theorem renameWords_of_all (h : cs.all Char.isAlphanum) : renameWords f cs = renameWord f cs :=
  renameWordsFrom_of_all h

theorem renameWords_of_isName {x : String} (h : isName x.toList) :
    renameWords f x.toList = (f x).toList := by
  rw [renameWords_of_all (Fragment.isAlphanum_of_isName h), renameWord, if_pos h,
    String.ofList_toList]

end Words

/-! The code of an expression. -/

section Expressions
variable {ω α β : Type} {f : String → String} {words : α → List Word} {code : α → String}
  {g : α → β} {code' : β → String} {op : ω → Word} {opCode : ω → String}

/-- The names in the code of an item are replaced as in the item. -/
def Recoded (f : String → String) (words : α → List Word) (code : α → String) (g : α → β)
    (code' : β → String) : Prop :=
  ∀ a, (∀ w ∈ words a, w.Valid) → renameWords f (code a).toList = (code' (g a)).toList

theorem Recoded.chain (h : Recoded f words code g code')
    (hop : ∀ o, (opCode o).toList.all isMark) :
    Recoded f (Chain.words op words) (Chain.code opCode code) (Chain.map g)
      (Chain.code opCode code') := by
  intro c hc
  obtain ⟨first, links⟩ := c
  rw [Chain.code_eq, Chain.code_eq, String.toList_append, String.toList_append]
  change renameWords f ((code first).toList ++ (Chain.restCode opCode code links).toList) =
    (code' (g first)).toList ++
      (Chain.restCode opCode code' (links.map (Prod.map id g))).toList
  induction links generalizing first with
  | nil =>
    obtain ⟨hfirst, -⟩ := List.forall_mem_append.mp hc
    simpa [Chain.restCode] using h first hfirst
  | cons link links ih =>
    obtain ⟨o, a⟩ := link
    obtain ⟨hfirst, hlinks⟩ := List.forall_mem_append.mp hc
    have hrest := ih a (List.forall_mem_cons.mp hlinks).2
    have hop : renameWords f (opCode o).toList = (opCode o).toList := renameWords_of_marks (hop o)
    rw [List.map_cons, Prod.map_apply, id, toList_restCode_cons, toList_restCode_cons,
      renameWords_append_cons (by decide), renameWords_append_cons (by decide), h first hfirst,
      hop, hrest]

end Expressions

namespace Renaming
variable {ρ : Renaming} {line cs o r : List Char} {x : String}

theorem line_opening (h : Unnamed (o ++ r))
    (hopening : openings.find? (·.isPrefixOf (o ++ r)) = some o) :
    ρ.line (o ++ r) = o ++ renameWords ρ.ofVariable r := by
  simp only [Renaming.line, h.declaration, h.label, h.jump, hopening, List.drop_left]

theorem line_assign (hx : isName x.toList) (r : List Char) :
    ρ.line (x.toList ++ (" = ".toList ++ r)) =
      (ρ.ofVariable x).toList ++ (" = ".toList ++ renameWords ρ.ofVariable r) := by
  have hunnamed : Unnamed (x.toList ++ (" = ".toList ++ r)) :=
    unnamed_of_mem (c := '=') (by simp) (by decide) (by decide)
  have hsign (r : List Char) : " = ".toList ++ r = ' ' :: '=' :: ' ' :: r := rfl
  have hwords : renameWords ρ.ofVariable (x.toList ++ (" = ".toList ++ r)) =
      (ρ.ofVariable x).toList ++ (" = ".toList ++ renameWords ρ.ofVariable r) := by
    rw [hsign, hsign, renameWords_append_cons (by decide), renameWords_of_isName hx,
      renameWords_cons (by decide), renameWords_cons (by decide)]
  simp only [Renaming.line, hunnamed.declaration, hunnamed.label, hunnamed.jump,
    find?_assign hx, assigns_assign hx, if_true, hwords]

/-- The lines of the one text are those of the other with other names. -/
def Relined (ρ : Renaming) (text text' : String) : Prop :=
  ∃ lines, Written text lines [] ∧ Written text' (lines.map ρ.line) []

namespace Relined
variable {top top' text text' : String} {line' : List Char}

theorem append (htop : ρ.Relined top top') (h : ρ.Relined text text') :
    ρ.Relined (top ++ text) (top' ++ text') := by
  obtain ⟨above, hold, hnew⟩ := htop
  obtain ⟨lines, htext, htext'⟩ := h
  refine ⟨above ++ lines, hold.append htext, ?_⟩
  rw [List.map_append]
  exact hnew.append htext'

theorem empty : ρ.Relined "" "" := ⟨[], ⟨rfl, nofun, nofun⟩, ⟨rfl, nofun, nofun⟩⟩

theorem single (htext : text.toList = line ++ ['\n']) (htext' : text'.toList = line' ++ ['\n'])
    (hline : ρ.line line = line') (hwhole : '\n' ∉ line) (hwhole' : '\n' ∉ line') :
    ρ.Relined text text' := by
  refine ⟨[line], ⟨by simp [htext], by simpa, nofun⟩, ?_⟩
  rw [List.map_singleton, hline]
  exact ⟨by simp [htext'], by simpa, nofun⟩

/-- A line that changes in a name or in a formula. -/
theorem changed {lead cs cs' trail : List Char}
    (hline : ρ.line (lead ++ (cs ++ trail)) = lead ++ (cs' ++ trail)) (hold : cs.all isFormulaChar)
    (hnew : cs'.all isFormulaChar) (htext : text.toList = lead ++ (cs ++ trail) ++ ['\n'])
    (htext' : text'.toList = lead ++ (cs' ++ trail) ++ ['\n']) (hwhole : '\n' ∉ lead ++ trail) :
    ρ.Relined text text' := by
  have hwhole (cs : List Char) (h : cs.all isFormulaChar) : '\n' ∉ lead ++ (cs ++ trail) := by
    simp only [List.mem_append, not_or] at hwhole ⊢
    exact ⟨hwhole.1, newline_not_mem_of_isFormulaChar h, hwhole.2⟩
  exact single htext htext' hline (hwhole cs hold) (hwhole cs' hnew)

/-- A line with an expression, or with a variable that is read. -/
theorem opening {cs cs' k : List Char}
    (hopening : openings.find? (·.isPrefixOf (o ++ (cs ++ k))) = some o)
    (hcs : renameWords ρ.ofVariable cs = cs') (hold : cs.all isFormulaChar)
    (hnew : cs'.all isFormulaChar) (htext : text.toList = o ++ (cs ++ k) ++ ['\n'])
    (htext' : text'.toList = o ++ (cs' ++ k) ++ ['\n']) (hparen : '(' ∈ o) (hk : k.all isMark)
    (hwhole : '\n' ∉ o ++ k) : ρ.Relined text text' := by
  have hunnamed : Unnamed (o ++ (cs ++ k)) :=
    unnamed_of_mem (List.mem_append_left _ hparen) (by decide) (by decide)
  refine changed ?_ hold hnew htext htext' hwhole
  rw [line_opening hunnamed hopening, renameWords_append_of_all hk, hcs]

theorem assign {x : String} {cs cs' : List Char} (hx : isName x.toList)
    (hx' : isName (ρ.ofVariable x).toList) (hcs : renameWords ρ.ofVariable cs = cs')
    (hold : cs.all isFormulaChar) (hnew : cs'.all isFormulaChar)
    (htext : text.toList = x.toList ++ " = ".toList ++ cs ++ ";".toList ++ ['\n'])
    (htext' : text'.toList =
      (ρ.ofVariable x).toList ++ " = ".toList ++ cs' ++ ";".toList ++ ['\n']) :
    ρ.Relined text text' := by
  have hall {x cs : List Char} (hx : isName x) (h : cs.all isFormulaChar) :
      (x ++ " = ".toList ++ cs).all isFormulaChar := by
    rw [List.all_append, List.all_append, all_isFormulaChar_of_isName hx, h]
    rfl
  have hline : ρ.line ([] ++ ((x.toList ++ " = ".toList ++ cs) ++ ";".toList)) =
      [] ++ (((ρ.ofVariable x).toList ++ " = ".toList ++ cs') ++ ";".toList) := by
    simp only [List.nil_append, List.append_assoc]
    rw [line_assign hx, renameWords_append_of_all (by decide), hcs]
  exact changed hline (hall hx hold) (hall hx' hnew) htext htext' (by decide)

theorem code_eq (h : ρ.Relined text text') : ρ.code text = text' := by
  obtain ⟨lines, htext, htext'⟩ := h
  have hlast : ρ.line [] = [] := by rfl
  have hlines (done : List (List Char)) :
      ['\n'].intercalate (done ++ [[]]) = done.flatMap (· ++ ['\n']) := by
    induction done with
    | nil => rfl
    | cons line done ih =>
      have hne : done ++ [[]] ≠ [] := by simp
      rw [List.cons_append, List.intercalate_cons_of_ne_nil hne, ih, List.flatMap_cons]
  rw [Renaming.code, htext.linesOf_eq, List.map_append, List.map_singleton, hlast, hlines]
  rw [← String.ofList_toList (s := text'), htext'.eq, List.append_nil]

end Relined

end Renaming

end TeenyToC
