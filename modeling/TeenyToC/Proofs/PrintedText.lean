import TeenyToC.Proofs.LexicalGrammar
import TeenyToC.Proofs.Places
import TeenyToC.Proofs.Tables

/-! Strings in C text. A string is put between two quotes, as a format, with nothing done to its
characters. None of them ends the literal, escapes another one or begins a conversion, so what is
printed is the string and a line end (`printText_written`). -/

namespace TeenyToC

/-- The character that an escape sequence of one letter or mark stands for in C. Those that give a
character by its number are left out, as nothing writes them. -/
def escape? : Char → Option Char
  | 'a' => some '\x07'
  | 'b' => some '\x08'
  | 't' => some '\t'
  | 'n' => some '\n'
  | 'v' => some '\x0b'
  | 'f' => some '\x0c'
  | 'r' => some '\r'
  | '"' => some '"'
  | '\x27' => some '\x27'
  | '?' => some '?'
  | '\\' => some '\\'
  | _ => none

/-- Reads a C string literal behind its opening quote: what it holds, and the text behind its
closing quote. The end of a line comes too early. -/
def literal? : List Char → Option (List Char × List Char)
  | [] | '\n' :: _ | ['\\'] => none
  | '"' :: r => some ([], r)
  | '\\' :: c :: r =>
    match escape? c, literal? r with
    | some d, some (held, r) => some (d :: held, r)
    | _, _ => none
  | c :: r => (literal? r).map fun (held, r) => (c :: held, r)

/-- What may stand in a conversion before the letter that ends it. -/
def isModifier (c : Char) : Bool :=
  c.isDigit || c ∈ ['-', '+', ' ', '#', '.', 'h', 'l', 'j', 'z', 't', 'L']

/-- The output of `printf` for a format and the arguments it does not use. The first argument is the
conversion at hand: one takes an argument, and one more for each width or precision that is a star.
The format ends with its first null. -/
def formatted {α : Type} (convert : List Char → α → List Char) :
    Option (List Char) → List Char → List α → Option (List Char × List α)
  | none, [], args | none, '\x00' :: _, args => some ([], args)
  | none, '%' :: r, args => formatted convert (some []) r args
  | none, c :: r, args => (formatted convert none r args).map fun (out, args) => (c :: out, args)
  | some [], '%' :: r, args =>
    (formatted convert none r args).map fun (out, args) => ('%' :: out, args)
  | some conversion, '*' :: r, _ :: args => formatted convert (some (conversion ++ ['*'])) r args
  | some conversion, c :: r, args =>
    if isModifier c then formatted convert (some (conversion ++ [c])) r args
    else match args with
      | a :: args => (formatted convert none r args).map fun (out, args) =>
          (convert (conversion ++ [c]) a ++ out, args)
      | [] => none
  | some _, [], _ => none

section
variable {c : Char} {cs r : List Char}

theorem not_isControl_of_isStringPart (h : isStringPart c) : isControl c = false :=
  (isStringPart_iff.mp h).2.1

theorem literal?_cons (h : isStringPart c) :
    literal? (c :: r) = (literal? r).map fun (held, r) => (c :: held, r) := by
  obtain ⟨hquote, hcontrol, hbackslash, -⟩ := isStringPart_iff.mp h
  have hnewline : c ≠ '\n' := fun hc => by
    rw [hc] at hcontrol
    cases hcontrol
  rw [literal?.eq_def]
  split <;> simp_all

/-- Nothing in a string ends the literal or is joined to another character. -/
theorem literal?_of_all (h : cs.all isStringPart) (r : List Char) :
    literal? (cs ++ '\\' :: 'n' :: '"' :: r) = some (cs ++ ['\n'], r) := by
  induction cs with
  | nil => rfl
  | cons c cs ih =>
    obtain ⟨hc, hcs⟩ := (Bool.and_eq_true _ _).mp h
    rw [List.cons_append, literal?_cons hc, ih hcs]
    rfl

/-- A format without conversions is printed as it is. -/
theorem formatted_of_not_mem {α : Type} (convert : List Char → α → List Char)
    (hpercent : '%' ∉ cs) (hnull : '\x00' ∉ cs) (args : List α) :
    formatted convert none cs args = some (cs, args) := by
  induction cs with
  | nil => rfl
  | cons c cs ih =>
    rw [List.mem_cons, not_or] at hpercent hnull
    have hstep : formatted convert none (c :: cs) args =
        (formatted convert none cs args).map fun (out, args) => (c :: out, args) := by
      rw [formatted.eq_def]
      split <;> simp_all
    rw [hstep, ih hpercent.2 hnull.2]
    rfl

end

/-- A statement begins a line. -/
theorem Compilation.Sound.getLast_of_statement {s : Compilation} (h : s.Sound)
    (hs : s.phase = .statement) : ∀ d ∈ s.code.body.toList.getLast?, d = '\n' := by
  obtain ⟨done, last, ⟨-, hwritten, -⟩, hlast⟩ := h
  rw [Unfinished, hs] at hlast
  subst hlast
  rw [hwritten.eq, List.append_nil]
  rcases List.eq_nil_or_concat done with rfl | ⟨lines, line, rfl⟩
  · simp
  · simp [List.concat_eq_append]

/-- The printing of a string is written at once. -/
theorem Compilation.Produces.printText {s : Compilation} {t : String} {ws : List Word} {c : CSource}
    (h : s.Produces (Keyword.word .print :: (.string, t) :: ws) c) :
    s.phase = .statement ∧ ∃ m trail, s.read [Keyword.word .print, (.string, t)] = .ok m ∧
      m.code.body = s.code.body ++ ("printf(\"" ++ t ++ "\\n\");\n") ∧
      c.body = m.code.body ++ trail := by
  obtain ⟨_, hprint, hproduces⟩ := h.of_cons
  obtain ⟨hphase, rfl⟩ := headed_of_step rfl hprint
  have hstring : (s.await .printed).step (.ofWord (.string, t)) =
      .ok ((s.write ("printf(\"" ++ t ++ "\\n\");\n")).await .lineEnd) :=
    step_string rfl t
  obtain ⟨m, hstep, hproduces⟩ := hproduces.of_cons
  obtain rfl := Except.ok.inj (hstring.symm.trans hstep)
  obtain ⟨trail, htrail⟩ := hproduces.extends
  exact ⟨hphase, _, trail, (read_cons_of_ok hprint).trans (read_singleton.trans hstep), rfl, htrail⟩

theorem isControl_printed {t : String} (h : ∀ d ∈ t.toList, isControl d = false) :
    ∀ d ∈ ("printf(\"" ++ t ++ "\\n\");").toList, isControl d = false := by
  have hopen : "printf(\"".toList.all fun d => !isControl d := rfl
  have hclose : "\\n\");".toList.all fun d => !isControl d := rfl
  simp only [List.all_eq_true, Bool.not_eq_true'] at hopen hclose
  intro d hd
  simp only [String.toList_append, List.mem_append] at hd
  rcases hd with (hd | hd) | hd
  · exact hopen d hd
  · exact h d hd
  · exact hclose d hd

/-- A printed string is written on a line of its own. There C reads one literal, up to the quote in
front of the bracket, and it holds the string and a line end; and `printf` prints what it holds and
takes no argument. -/
theorem printText_written {source t : String} {c : CSource} {ts : List Token}
    {before after : List Word} (h : compile source = .ok c) (hts : tokenize source = .ok ts)
    (hws : ts.map Token.word = before ++ Keyword.word .print :: (.string, t) :: after) :
    ∃ lead trail, WrittenAs c before [Keyword.word .print, (.string, t)] lead
        ("printf(\"" ++ t ++ "\\n\");\n") trail ∧
      (∀ d ∈ lead.toList.getLast?, d = '\n') ∧
      (∀ d ∈ ("printf(\"" ++ t ++ "\\n\");").toList, isControl d = false) ∧
      literal? (t ++ "\\n\");\n" ++ trail).toList =
        some ((t ++ "\n").toList, (");\n" ++ trail).toList) ∧
      '%' ∉ (t ++ "\n").toList ∧
      ∀ (α : Type) (convert : List Char → α → List Char) (args : List α),
        formatted convert none (t ++ "\n").toList args = some ((t ++ "\n").toList, args) := by
  obtain ⟨s, rest, hs, hafter, hproduces, hvalid⟩ :=
    exists_produces h hts hws (by simp [eofWord, Keyword.word])
  -- The string is not the end of the text, so it is among the words that are still read.
  obtain ⟨rest, rfl⟩ : ∃ us, rest = (.string, t) :: us := by
    cases rest with
    | nil => simp [eofWord] at hafter
    | cons w us => exact ⟨us, by rw [(List.cons.inj hafter).1]⟩
  obtain ⟨hbefore, hrest⟩ := List.forall_mem_append.mp hvalid
  have ht : t.toList.all isStringPart := (hrest (.string, t) (by simp)).admits
  have hcontrol : ∀ d ∈ t.toList, isControl d = false := fun d hd =>
    not_isControl_of_isStringPart (List.all_eq_true.mp ht d hd)
  have hpercent : '%' ∉ t.toList := fun hd => by
    cases (List.all_eq_true.mp ht _ hd : isStringPart '%')
  obtain ⟨hphase, m, trail, hread, hcode, htrail⟩ := hproduces.printText
  have hopening : s.code.body ++ s.opening = s.code.body := by
    rw [Compilation.opening, hphase]
    exact String.append_empty
  refine ⟨s.code.body ++ s.opening, trail, writtenAs_of_read hs hread ?_ htrail, ?_,
    isControl_printed hcontrol, ?_, ?_, ?_⟩
  · rw [hopening, hcode]
  · rw [hopening]
    exact (Compilation.sound_read Compilation.sound_start hbefore hs).getLast_of_statement hphase
  · have hliteral := literal?_of_all ht (");\n" ++ trail).toList
    simpa using hliteral
  · simpa using hpercent
  · intro α convert args
    have hnull : '\x00' ∉ t.toList := fun hd => by cases hcontrol _ hd
    exact formatted_of_not_mem convert (by simpa using hpercent) (by simpa using hnull) args

/-- An apostrophe, a question mark, what opens a comment and a letter beyond ASCII. -/
theorem printText_written_marks : ∃ c ts, compile "PRINT \"it's /* né? //\"" = .ok c ∧
    tokenize "PRINT \"it's /* né? //\"" = .ok ts ∧
      ts.map Token.word = [] ++ Keyword.word .print :: (.string, "it's /* né? //") ::
        [newlineWord, eofWord] ∧
      ∃ lead trail, WrittenAs c [] [Keyword.word .print, (.string, "it's /* né? //")] lead
          "printf(\"it's /* né? //\\n\");\n" trail ∧
        literal? ("it's /* né? //\\n\");\n" ++ trail).toList =
          some ("it's /* né? //\n".toList, (");\n" ++ trail).toList) := by
  have h : compile "PRINT \"it's /* né? //\"" = .ok ⟨"#include <stdio.h>\nint main(void)\x7b\n",
      "printf(\"it's /* né? //\\n\");\nreturn 0;\n\x7d\n"⟩ := by cbv
  have hts : tokenize "PRINT \"it's /* né? //\"" = .ok [⟨.keyword .print, "PRINT", 1⟩,
      ⟨.string, "it's /* né? //", 1⟩, ⟨.newline, "\n", 1⟩, ⟨.eof, "", 2⟩] := by cbv
  have hws : ([⟨.keyword .print, "PRINT", 1⟩, ⟨.string, "it's /* né? //", 1⟩, ⟨.newline, "\n", 1⟩,
      ⟨.eof, "", 2⟩] : List Token).map Token.word = [] ++ Keyword.word .print ::
        (.string, "it's /* né? //") :: [newlineWord, eofWord] := rfl
  obtain ⟨lead, trail, hwritten, -, -, hliteral, -⟩ := printText_written h hts hws
  exact ⟨_, _, h, hts, hws, lead, trail, hwritten, hliteral⟩

end TeenyToC
