import TeenyToC.Proofs.CodeLines
import TeenyToC.Proofs.Emission

/-! The tables of a compilation agree with the texts it has written after every step
(`sound_step`). A variable is declared before its name is written anywhere, and a label and a jump
are recorded with their lines. Within a statement the last line of the body is unfinished, and the
phase says what it looks like (`Unfinished`), so that the tokens to come can finish it. -/

namespace TeenyToC

namespace Compilation

/-- The header declares each variable once. -/
structure Heads (header : String) (declared : List String) : Prop where
  eq : header = "#include <stdio.h>\nint main(void)\x7b\n" ++ declarations declared.reverse
  distinct : declared.Nodup
  names : ∀ x ∈ declared, isName x.toList

/-- The tables say what some lines hold. -/
structure Records (declared labels : List String) (jumps : List Token)
    (lines : List (List Char)) : Prop where
  uses : ∀ x ∈ lines.flatMap variablesOf, x ∈ declared
  labelLines : lines.filterMap labelOf? = labels.reverse
  once : labels.Nodup
  jumpLines : lines.filterMap jumpOf? = jumps.reverse.map Token.text
  declarationLines : lines.filterMap declarationOf? = []

/-- The tables agree with the header and with the finished lines of the body. -/
def Traces (s : Compilation) (done : List (List Char)) (last : List Char) : Prop :=
  Heads s.code.header s.declared ∧ Written s.code.body done last ∧
    Records s.declared s.labels s.jumps done

/-- What a line begins with if an expression goes on at this place. -/
inductive Opens (declared : List String) : Place → List Char → Prop where
  | print : Opens declared .print "printf(\"%.2f\\n\", (float)(".toList
  | guard (b : Block) (compared : Bool) : Opens declared (.guard b compared) b.opening.toList
  | assign {x : String} : x ∈ declared → isName x.toList →
      Opens declared .assign (x.toList ++ " = ".toList)

/-- An opening and a part of an expression. -/
structure Begun (declared : List String) (p : Place) (o formula : List Char) : Prop where
  opens : Opens declared p o
  chars : formula.all isFormulaChar
  reads : ∀ x ∈ wordsIn formula, x ∈ declared

/-- The next character begins a word of its own. -/
def Apart (cs : List Char) : Prop := ∀ c ∈ cs.getLast?, isMark c

/-- The line that is not finished. -/
def Unfinished (s : Compilation) (last : List Char) : Prop :=
  match s.phase with
  | .signed p | .operand p => ∃ o f, last = o ++ f ∧ Begun s.declared p o f ∧ Apart f
  | .operator p => ∃ o f, last = o ++ f ∧ Begun s.declared p o f
  | .equals => Opens s.declared .assign last
  | .labelled name => last = [] ∧ isName name.text.toList
  | _ => last = []

def Sound (s : Compilation) : Prop := ∃ done last, s.Traces done last ∧ s.Unfinished last

section Lines
variable {s : Compilation} {declared labels : List String} {jumps : List Token}
  {lines done : List (List Char)} {line last : List Char} {x : String}

theorem filterMap_concat_of_none {α β : Type} {f : α → Option β} {xs : List α} {y : α}
    (h : f y = none) : (xs ++ [y]).filterMap f = xs.filterMap f := by simp [h]

theorem filterMap_concat_of_some {α β : Type} {f : α → Option β} {xs : List α} {y : α} {z : β}
    (h : f y = some z) : (xs ++ [y]).filterMap f = xs.filterMap f ++ [z] := by simp [h]

theorem forall_mem_of_eq_nil {α : Type} {P : α → Prop} {xs : List α} (h : xs = []) :
    ∀ x ∈ xs, P x := by simp [h]

theorem Records.uses_concat (h : Records declared labels jumps lines)
    (hv : ∀ x ∈ variablesOf line, x ∈ declared) :
    ∀ x ∈ (lines ++ [line]).flatMap variablesOf, x ∈ declared := by
  rw [List.flatMap_append, List.flatMap_singleton]
  exact List.forall_mem_append.mpr ⟨h.uses, hv⟩

theorem Records.unnamed (h : Records declared labels jumps lines) (hline : Unnamed line)
    (hv : ∀ x ∈ variablesOf line, x ∈ declared) :
    Records declared labels jumps (lines ++ [line]) where
  uses := h.uses_concat hv
  labelLines := (filterMap_concat_of_none hline.label).trans h.labelLines
  once := h.once
  jumpLines := (filterMap_concat_of_none hline.jump).trans h.jumpLines
  declarationLines := (filterMap_concat_of_none hline.declaration).trans h.declarationLines

theorem Records.label (h : Records declared labels jumps lines) (hx : isName x.toList)
    (hnew : x ∉ labels) :
    Records declared (x :: labels) jumps (lines ++ [x.toList ++ ":;".toList]) where
  uses := h.uses_concat (forall_mem_of_eq_nil (variablesOf_label hx))
  labelLines := by
    rw [filterMap_concat_of_some (labelOf?_label hx), h.labelLines, List.reverse_cons]
  once := List.nodup_cons.mpr ⟨hnew, h.once⟩
  jumpLines := (filterMap_concat_of_none (jumpOf?_label _)).trans h.jumpLines
  declarationLines :=
    (filterMap_concat_of_none (declarationOf?_label _)).trans h.declarationLines

theorem Records.jump {t : Token} (h : Records declared labels jumps lines)
    (ht : isName t.text.toList) : Records declared labels (t :: jumps)
      (lines ++ ["goto ".toList ++ (t.text.toList ++ ";".toList)]) where
  uses := h.uses_concat (forall_mem_of_eq_nil (variablesOf_goto ht))
  labelLines := (filterMap_concat_of_none (labelOf?_goto _)).trans h.labelLines
  once := h.once
  jumpLines := by
    rw [filterMap_concat_of_some (jumpOf?_goto ht), h.jumpLines, List.reverse_cons, List.map_append]
    rfl
  declarationLines := (filterMap_concat_of_none (declarationOf?_goto _)).trans h.declarationLines

theorem Traces.write (h : s.Traces done last) (code : String) (hcode : '\n' ∉ code.toList) :
    (s.write code).Traces done (last ++ code.toList) :=
  ⟨h.1, h.2.1.write hcode, h.2.2⟩

theorem Traces.writeLine (h : s.Traces done last) (code : String) (hcode : '\n' ∉ code.toList)
    (hline : Unnamed (last ++ code.toList))
    (hv : ∀ x ∈ variablesOf (last ++ code.toList), x ∈ s.declared) :
    (s.writeLine code).Traces (done ++ [last ++ code.toList]) [] :=
  ⟨h.1, h.2.1.writeLine hcode, h.2.2.unnamed hline hv⟩

/-- A line without variables. -/
theorem Traces.plainLine (h : s.Traces done []) (code : String) (hcode : '\n' ∉ code.toList)
    (hline : Unnamed code.toList) (hnone : variablesOf code.toList = []) :
    (s.writeLine code).Traces (done ++ [code.toList]) [] :=
  h.writeLine _ hcode hline (forall_mem_of_eq_nil hnone)

theorem Traces.brace (h : s.Traces done []) :
    (s.writeLine "\x7d").Traces (done ++ ["\x7d".toList]) [] :=
  h.plainLine _ (by decide) (unnamed_of_mem (c := '\x7d') (by decide) (by decide) (by decide)) (by rfl)

theorem Heads.declare (h : Heads s.code.header s.declared) (hx : isName x.toList) :
    Heads (s.declare x).code.header (s.declare x).declared := by
  by_cases hmem : x ∈ s.declared
  · simpa [Compilation.declare, hmem] using h
  · rw [header_declare, declared_declare, if_neg hmem, List.insert_of_not_mem hmem]
    exact {
      eq := by rw [h.eq, List.reverse_cons, declarations_append, String.append_assoc]
      distinct := List.nodup_cons.mpr ⟨hmem, h.distinct⟩
      names := List.forall_mem_cons.mpr ⟨hx, h.names⟩ }

theorem mem_declare (x : String) : x ∈ (s.declare x).declared := by simp [declared_declare]

theorem Traces.declare (h : s.Traces done last) (hx : isName x.toList) :
    (s.declare x).Traces done last := by
  obtain ⟨hheads, hwritten, hrecords⟩ := h
  have hbody : (s.declare x).code.body = s.code.body := body_mentionAll [⟨.target, x⟩]
  refine ⟨hheads.declare hx, hbody ▸ hwritten, ?_⟩
  rw [labels_declare, jumps_declare]
  exact { hrecords with
    uses := fun y hy => by simp [declared_declare, hrecords.uses y hy] }

end Lines

/-! An expression goes on, or its line is finished. -/

section Expressions
variable {declared : List String} {p : Place} {o f cs k : List Char}

theorem wordsIn_append_of_apart (h : Apart f) : wordsIn (f ++ cs) = wordsIn f ++ wordsIn cs := by
  rcases List.eq_nil_or_concat f with rfl | ⟨f, c, rfl⟩
  · rfl
  · rw [List.concat_eq_append] at h ⊢
    have hc : isMark c := h c (by simp)
    rw [List.append_assoc, List.singleton_append, wordsIn_append_cons hc,
      wordsIn_append_of_all (by simp [hc])]

theorem apart_append (hne : cs ≠ []) (hcs : cs.all isMark) : Apart (f ++ cs) := by
  obtain ⟨cs, d, rfl⟩ := (List.eq_nil_or_concat cs).resolve_left hne
  intro c hc
  obtain rfl : d = c := by simpa using hc
  exact List.all_eq_true.mp hcs d (by simp)

theorem Opens.paren_or_equals {declared : List String} (h : Opens declared p o) :
    '(' ∈ o ∨ '=' ∈ o := by
  cases h with
  | print => exact .inl (by decide)
  | guard b => exact .inl (by cases b <;> decide)
  | assign => exact .inr (by simp)

theorem Opens.unnamed (h : Opens declared p o) (cs : List Char) : Unnamed (o ++ cs) := by
  rcases h.paren_or_equals with hmem | hmem <;>
    exact unnamed_of_mem (List.mem_append_left _ hmem) (by decide) (by decide)

/-- What is compared does not change how a condition begins. -/
theorem Opens.compared {b : Block} {c : Bool} (h : Opens declared (.guard b c) o) (c' : Bool) :
    Opens declared (.guard b c') o := by
  cases h
  exact .guard b c'

/-- Up to the end of the line, the variables are those of the expression, and the target. -/
theorem Begun.variablesOf (h : Begun declared p o f) (hk : k.all isMark) (hk' : '(' ∉ k) :
    ∀ x ∈ variablesOf (o ++ (f ++ k)), x ∈ declared := by
  have hwords : wordsIn (f ++ k) = wordsIn f := wordsIn_append_of_all hk
  have hparen : '(' ∉ f ++ k := by
    intro hmem
    rcases List.mem_append.mp hmem with hmem | hmem
    · simpa [isFormulaChar] using List.all_eq_true.mp h.chars _ hmem
    · exact hk' hmem
  have hreads := h.reads
  cases h.opens with
  | print => rwa [variablesOf_print, hwords]
  | guard b => rwa [variablesOf_head b hparen, hwords]
  | assign hx hname =>
    rw [List.append_assoc, variablesOf_assign hname, hwords, String.ofList_toList]
    exact List.forall_mem_cons.mpr ⟨hx, hreads⟩

theorem Begun.operand (h : Begun declared p o f) (hf : Apart f) (hcs : cs.all isFormulaChar)
    (hreads : ∀ x ∈ wordsIn cs, x ∈ declared) : Begun declared p o (f ++ cs) where
  opens := h.opens
  chars := by rw [List.all_append, h.chars, hcs]; rfl
  reads := by
    rw [wordsIn_append_of_apart hf]
    exact List.forall_mem_append.mpr ⟨h.reads, hreads⟩

/-- An operator with its blanks, or a sign. -/
theorem Begun.sign (h : Begun declared p o f) (hcs : cs.all isFormulaChar)
    (hmarks : cs.all isMark) : Begun declared p o (f ++ cs) where
  opens := h.opens
  chars := by rw [List.all_append, h.chars, hcs]; rfl
  reads := by
    rw [wordsIn_append_of_all hmarks]
    exact h.reads

theorem Opens.begun (h : Opens declared p o) : Begun declared p o [] where
  opens := h
  chars := rfl
  reads := by simp

theorem apart_nil : Apart [] := by simp [Apart]

end Expressions

section Steps
variable {s m : Compilation} {p : Place} {t : Token} {done : List (List Char)}
  {o f : List Char}

theorem sound_operand (h : s.Traces done (o ++ f)) (hb : Begun s.declared p o f) (hf : Apart f)
    (ht : t.kind.admits t.text.toList) (hm : s.operand p t = .ok m) : m.Sound := by
  have hstep (hchars : t.text.toList.all isFormulaChar)
      (hreads : ∀ x ∈ wordsIn t.text.toList, x ∈ s.declared) :
      ((s.write t.text).await (.operator p)).Sound := by
    refine ⟨done, _, h.write _ (newline_not_mem_of_isFormulaChar hchars), o, f ++ t.text.toList,
      List.append_assoc _ _ _, hb.operand hf hchars hreads⟩
  unfold operand at hm
  split at hm
  · next hk =>
    cases hm
    rw [hk] at ht
    exact hstep (all_isFormulaChar_of_isNumeral ht) (by simp [wordsIn_of_isNumeral ht])
  · next hk =>
    split at hm
    · next hmem =>
      cases hm
      rw [hk] at ht
      have hname : isName t.text.toList := ((Bool.and_eq_true _ _).mp ht).1
      exact hstep (all_isFormulaChar_of_isName hname) (by simp [wordsIn_of_isName hname, hmem])
    · cases hm
  · cases hm

/-- The kinds whose texts are written between operands. -/
def IsOperator (k : Kind) : Prop :=
  (∃ op, k = .additive op) ∨ (∃ op, k = .multiplicative op) ∨ ∃ op, k = .comparison op

theorem marks_of_isOperator {k : Kind} {cs : List Char} (hk : IsOperator k) (h : k.admits cs) :
    cs.all isFormulaChar ∧ cs.all isMark ∧ cs ≠ [] := by
  rcases hk with ⟨op, rfl⟩ | ⟨op, rfl⟩ | ⟨op, rfl⟩
  all_goals
    have hcs : cs = op.symbol.toList := by simpa [Kind.admits] using h
    rw [hcs]
    cases op <;> decide

theorem sound_signed (h : s.Traces done (o ++ f)) (hb : Begun s.declared p o f) (hf : Apart f)
    (ht : t.kind.admits t.text.toList) (hm : s.signed p t = .ok m) : m.Sound := by
  unfold signed at hm
  split at hm
  · next op hk =>
    cases hm
    obtain ⟨hchars, hmarks, hne⟩ := marks_of_isOperator (.inl ⟨op, hk⟩) ht
    exact ⟨done, _, h.write _ (newline_not_mem_of_isFormulaChar hchars), o, f ++ t.text.toList,
      List.append_assoc _ _ _, hb.sign hchars hmarks, apart_append hne hmarks⟩
  · exact sound_operand h hb hf ht hm

theorem sound_printed (h : s.Traces done []) (ht : t.kind.admits t.text.toList)
    (hm : s.printed t = .ok m) : m.Sound := by
  unfold printed at hm
  split at hm
  · next hk =>
    cases hm
    rw [hk] at ht
    have htext : t.text.toList.all isStringPart := ht
    have hcode : ("printf(\"" ++ t.text ++ "\\n\");").toList =
        "printf(\"".toList ++ (t.text.toList ++ "\\n\");".toList) := by simp
    have hline : '\n' ∉ ("printf(\"" ++ t.text ++ "\\n\");").toList := by
      have hnone : '\n' ∉ t.text.toList := fun hmem =>
        absurd (List.all_eq_true.mp htext _ hmem) (by decide)
      simp [hnone]
    have hunnamed : Unnamed ("printf(\"" ++ t.text ++ "\\n\");").toList :=
      unnamed_of_mem (c := '(') (by simp) (by decide) (by decide)
    exact ⟨_, _, h.plainLine _ hline hunnamed (by rw [hcode, variablesOf_text htext]), rfl⟩
  · have hopen := h.write "printf(\"%.2f\\n\", (float)(" (by decide)
    rw [List.nil_append, ← List.append_nil (String.toList _)] at hopen
    exact sound_signed hopen Opens.print.begun apart_nil ht hm

/-- An expression is left, and its line is finished. -/
theorem Traces.close (h : s.Traces done (o ++ f)) (hb : Begun s.declared p o f) (code : String)
    (hmarks : code.toList.all isMark) (hparen : '(' ∉ code.toList) (hline : '\n' ∉ code.toList) :
    (s.writeLine code).Traces (done ++ [o ++ f ++ code.toList]) [] := by
  have hvariables := hb.variablesOf hmarks hparen
  rw [← List.append_assoc] at hvariables
  have hunnamed := hb.opens.unnamed (f ++ code.toList)
  rw [← List.append_assoc] at hunnamed
  exact h.writeLine _ hline hunnamed hvariables

theorem sound_leave (h : s.Traces done (o ++ f)) (hb : Begun s.declared p o f)
    (hm : s.leave p t = .ok m) : m.Sound := by
  unfold leave at hm
  split at hm
  · obtain ⟨-, rfl⟩ := expect_eq_ok_iff.mp hm
    exact ⟨_, _, h.close hb "));" (by decide) (by decide) (by decide), rfl⟩
  · obtain ⟨-, rfl⟩ := expect_eq_ok_iff.mp hm
    exact ⟨_, _, h.close hb ";" (by decide) (by decide) (by decide), rfl⟩
  · cases hm
  · obtain ⟨-, rfl⟩ := expect_eq_ok_iff.mp hm
    exact ⟨_, _, h.close hb ")\x7b" (by decide) (by decide) (by decide), rfl⟩

theorem sound_operator (h : s.Traces done (o ++ f)) (hb : Begun s.declared p o f)
    (ht : t.kind.admits t.text.toList) (hm : s.operator p t = .ok m) : m.Sound := by
  have hstep {q : Place} (hq : Opens s.declared q o) (hk : IsOperator t.kind) :
      ((s.write (" " ++ t.text ++ " ")).await (.signed q)).Sound := by
    obtain ⟨htext, htext', -⟩ := marks_of_isOperator hk ht
    have hspaced : (" " ++ t.text ++ " ").toList = ' ' :: (t.text.toList ++ [' ']) := by simp
    have hchars : (" " ++ t.text ++ " ").toList.all isFormulaChar := by
      rw [hspaced, List.all_cons, List.all_append, htext]
      rfl
    have hmarks : (" " ++ t.text ++ " ").toList.all isMark := by
      rw [hspaced, List.all_cons, List.all_append, htext']
      rfl
    have hne : (" " ++ t.text ++ " ").toList ≠ [] := by simp
    have hb : Begun s.declared q o f := { hb with opens := hq }
    exact ⟨done, _, h.write _ (newline_not_mem_of_isFormulaChar hchars), o, _,
      List.append_assoc _ _ _, hb.sign hchars hmarks, apart_append hne hmarks⟩
  unfold operator at hm
  split at hm
  · next op hk =>
    cases hm
    exact hstep hb.opens (.inl ⟨op, hk⟩)
  · next op hk =>
    cases hm
    exact hstep hb.opens (.inr (.inl ⟨op, hk⟩))
  · next b compared op hk =>
    cases hm
    exact hstep (hb.opens.compared true) (.inr (.inr ⟨op, hk⟩))
  · exact sound_leave h hb hm

theorem sound_begin (hs : s.phase = .statement) (h : s.Traces done [])
    (hm : s.begin t = .ok m) : m.Sound := by
  unfold begin at hm
  split at hm
  · cases hm
    exact ⟨_, _, h.brace, rfl⟩
  · split at hm
    case h_8 => cases hm
    case h_1 =>
      cases hm
      exact ⟨done, [], h, by simp [Unfinished, hs]⟩
    case h_3 b _ =>
      cases hm
      have hline : '\n' ∉ b.opening.toList := by cases b <;> decide
      have hopen := h.write _ hline
      rw [List.nil_append] at hopen
      exact ⟨done, _, hopen, _, [], (List.append_nil _).symm, (Opens.guard b false).begun,
        apart_nil⟩
    all_goals
      cases hm
      exact ⟨done, [], h, rfl⟩

theorem sound_settle (h : s.Sound) (hm : s.settle = .ok m) : m.Sound := by
  unfold settle at hm
  split at hm
  · next name hs =>
    split at hm
    · cases hm
    · next hnew =>
      cases hm
      obtain ⟨done, last, htraces, hlast⟩ := h
      rw [Unfinished, hs] at hlast
      obtain ⟨rfl, hname⟩ := hlast
      have hline : '\n' ∉ (name.text ++ ":;").toList := by
        simpa using newline_not_mem_of_isName hname
      have hwritten := htraces.2.1.writeLine hline
      rw [List.nil_append, String.toList_append] at hwritten
      exact ⟨_, [], ⟨htraces.1, hwritten, htraces.2.2.label hname hnew⟩, rfl⟩
  · cases hm
    exact h

/-- What `input` writes in one go. -/
theorem Traces.input {name : String} (h : s.Traces done []) (hname : isName name.toList) :
    ∃ lines, (s.input name).Traces lines [] := by
  have hdeclared := h.declare hname
  have hmem : name ∈ (s.declare name).declared := mem_declare name
  have hscanLine : ("if(1 != scanf(\"%f\", &" ++ name ++ ")) \x7b").toList =
      "if(1 != scanf(\"%f\", &".toList ++ (name.toList ++ ")) \x7b".toList) := by simp
  have hscan := hdeclared.writeLine ("if(1 != scanf(\"%f\", &" ++ name ++ ")) \x7b")
    (by simpa using newline_not_mem_of_isName hname)
    (unnamed_of_mem (c := '(') (by simp) (by decide) (by decide))
    (by
      rw [List.nil_append, hscanLine, variablesOf_scan, wordsIn_append_of_all (by decide),
        wordsIn_of_isName hname, String.ofList_toList]
      exact List.forall_mem_singleton.mpr hmem)
  have hzeroLine : (name ++ " = 0;").toList =
      name.toList ++ (" = ".toList ++ "0;".toList) := by simp
  have hzero := hscan.writeLine (name ++ " = 0;")
    (by simpa using newline_not_mem_of_isName hname)
    (unnamed_of_mem (c := '=') (by simp) (by decide) (by decide))
    (by
      rw [List.nil_append, hzeroLine, variablesOf_assign hname, String.ofList_toList]
      exact List.forall_mem_singleton.mpr hmem)
  exact ⟨_, ((hzero.plainLine "scanf(\"%*s\");" (by decide)
    (unnamed_of_mem (c := '(') (by decide) (by decide) (by decide)) (by rfl)).brace)⟩

theorem sound_accept (h : s.Sound) (ht : t.kind.admits t.text.toList) (hm : s.accept t = .ok m) :
    m.Sound := by
  obtain ⟨done, last, htraces, hlast⟩ := h
  have hisName (hk : t.kind = .ident) : isName t.text.toList := by
    rw [hk] at ht
    exact ((Bool.and_eq_true _ _).mp ht).1
  -- One case for each phase, in which the unfinished line has one form.
  unfold accept at hm
  unfold Unfinished at hlast
  split at hm <;> rename_i hs <;> simp only [hs] at hlast
  case h_1 =>
    subst hlast
    exact sound_begin hs htraces hm
  case h_2 =>
    subst hlast
    exact sound_printed htraces ht hm
  case h_3 =>
    obtain ⟨o, f, rfl, hb, hf⟩ := hlast
    exact sound_signed htraces hb hf ht hm
  case h_4 =>
    obtain ⟨o, f, rfl, hb, hf⟩ := hlast
    exact sound_operand htraces hb hf ht hm
  case h_5 =>
    obtain ⟨o, f, rfl, hb⟩ := hlast
    exact sound_operator htraces hb ht hm
  case h_6 =>
    obtain ⟨hk, rfl⟩ := expect_eq_ok_iff.mp hm
    exact ⟨done, last, htraces, hlast, hisName hk⟩
  case h_7 =>
    obtain ⟨hk, rfl⟩ := expect_eq_ok_iff.mp hm
    subst hlast
    have hline : ("goto " ++ t.text ++ ";").toList =
        "goto ".toList ++ (t.text.toList ++ ";".toList) := by simp
    have hcode : '\n' ∉ ("goto " ++ t.text ++ ";").toList := by
      simpa using newline_not_mem_of_isName (hisName hk)
    have hwritten := htraces.2.1.writeLine hcode
    rw [List.nil_append, hline] at hwritten
    exact ⟨_, [], ⟨htraces.1, hwritten, htraces.2.2.jump (hisName hk)⟩, rfl⟩
  case h_8 =>
    obtain ⟨hk, rfl⟩ := expect_eq_ok_iff.mp hm
    subst hlast
    have hopen := (htraces.declare (hisName hk)).write (t.text ++ " = ")
      (by simpa using newline_not_mem_of_isName (hisName hk))
    rw [List.nil_append, String.toList_append] at hopen
    exact ⟨done, _, hopen, .assign (mem_declare t.text) (hisName hk)⟩
  case h_9 =>
    obtain ⟨-, rfl⟩ := expect_eq_ok_iff.mp hm
    exact ⟨done, last, htraces, last, [], (List.append_nil _).symm, hlast.begun, apart_nil⟩
  case h_10 =>
    obtain ⟨hk, rfl⟩ := expect_eq_ok_iff.mp hm
    subst hlast
    obtain ⟨lines, hlines⟩ := htraces.input (hisName hk)
    exact ⟨lines, [], hlines, rfl⟩
  case h_11 =>
    obtain ⟨-, rfl⟩ := expect_eq_ok_iff.mp hm
    exact ⟨done, last, htraces, hlast.1⟩
  case h_12 =>
    obtain ⟨-, rfl⟩ := expect_eq_ok_iff.mp hm
    exact ⟨done, last, htraces, hlast⟩

theorem sound_step (h : s.Sound) (ht : t.kind.admits t.text.toList) (hm : s.step t = .ok m) :
    m.Sound := by
  obtain ⟨r, hsettle, haccept⟩ := bind_eq_ok.mp hm
  exact sound_accept (sound_settle h hsettle) ht haccept

theorem sound_start : start.Sound := by
  refine ⟨[], [], ⟨⟨rfl, List.nodup_nil, by simp [start]⟩, ⟨rfl, by simp, by simp⟩, ?_⟩, rfl⟩
  exact ⟨by simp, rfl, List.nodup_nil, rfl, rfl⟩

theorem sound_read {ws : List Word} (h : s.Sound) (hws : ∀ w ∈ ws, w.Valid)
    (hm : s.read ws = .ok m) : m.Sound := by
  induction ws generalizing s with
  | nil =>
    cases hm
    exact h
  | cons w ws ih =>
    obtain ⟨r, hstep, hread⟩ := read_cons_eq_ok.mp hm
    obtain ⟨hw, hws⟩ := List.forall_mem_cons.mp hws
    exact ih (sound_step h hw.admits hstep) hws hread

/-- The end of a program writes two more lines, if it is accepted. -/
theorem sound_finish (h : s.Sound) (ht : t.kind = .eof) (hm : s.finish t = .ok m) :
    m.Sound := by
  obtain ⟨hphase, -, -, rfl⟩ := (finish_eq_ok_iff ht).mp hm
  obtain ⟨done, last, htraces, hlast⟩ := h
  rw [Unfinished, hphase] at hlast
  subst hlast
  have hreturn : Unnamed "return 0;".toList := ⟨by rfl, by rfl, by rfl⟩
  have hphase : ((s.writeLine "return 0;").writeLine "\x7d").phase = .statement := hphase
  have hlast : Unfinished ((s.writeLine "return 0;").writeLine "\x7d") [] := by
    rw [Unfinished, hphase]
  exact ⟨_, [], (htraces.plainLine "return 0;" (by decide) hreturn (by rfl)).brace, hlast⟩

/-- What is unfinished is taken for no label and no jump, and its variables are declared. -/
theorem Unfinished.unnamed {last : List Char} (h : s.Unfinished last) :
    Unnamed last ∧ ∀ x ∈ variablesOf last, x ∈ s.declared := by
  have hbegun {p : Place} {o f : List Char} (hb : Begun s.declared p o f) :
      Unnamed (o ++ f) ∧ ∀ x ∈ variablesOf (o ++ f), x ∈ s.declared := by
    have hvariables := hb.variablesOf (k := []) rfl (by simp)
    rw [List.append_nil] at hvariables
    exact ⟨hb.opens.unnamed f, hvariables⟩
  have hempty : Unnamed [] ∧ ∀ x ∈ variablesOf [], x ∈ s.declared :=
    ⟨⟨rfl, rfl, rfl⟩, fun x hx => by cases hx⟩
  unfold Unfinished at h
  split at h
  · obtain ⟨o, f, rfl, hb, -⟩ := h
    exact hbegun hb
  · obtain ⟨o, f, rfl, hb, -⟩ := h
    exact hbegun hb
  · obtain ⟨o, f, rfl, hb⟩ := h
    exact hbegun hb
  · rw [← List.append_nil last]
    exact hbegun h.begun
  · obtain ⟨rfl, -⟩ := h
    exact hempty
  · subst h
    exact hempty

end Steps

end Compilation

end TeenyToC
