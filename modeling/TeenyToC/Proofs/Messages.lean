import TeenyToC.Proofs.AfterFaults
import TeenyToC.Proofs.EndOfText
import TeenyToC.Proofs.QuotedText
import TeenyToC.Proofs.Spelling

/-! What a message shows of the text. Quoted text has no control characters, whatever it quotes, and
neither have the words around it, so a message has one only if it is in what the fault tells
unquoted (`CompileError.controlFree_message`). That is a name as a rule, and a name has none. But
a condition can break off at the end of its line, and a character that no lexeme begins with can be
any. -/

namespace TeenyToC

open Text

def ControlFree (cs : List Char) : Prop := ∀ c ∈ cs, isControl c = false

instance (cs : List Char) : Decidable (ControlFree cs) :=
  List.decidableBAll (isControl · = false) cs

/-- What the message writes as it is. -/
def LexFault.unquoted : LexFault → List Char
  | unknownChar c => [c]
  | illegalStringChar _ | malformedNumber | unterminatedString | incompleteNotEqual _ => []

def ParseFault.unquoted : ParseFault → List Char
  | missingComparator text => text.toList
  | undeclaredVariable name | duplicateLabel name | undeclaredLabel name => name.toList
  | expected _ _ | invalidStatement _ _ | unexpectedOperand _ _ => []

def CompileError.unquoted : CompileError → List Char
  | lex e => e.fault.unquoted
  | parse e => e.fault.unquoted

section
variable {c : Char} {cs ds : List Char}

@[simp] theorem controlFree_nil : ControlFree [] := nofun

@[simp] theorem controlFree_cons : ControlFree (c :: cs) ↔ isControl c = false ∧ ControlFree cs :=
  List.forall_mem_cons

@[simp] theorem controlFree_append : ControlFree (cs ++ ds) ↔ ControlFree cs ∧ ControlFree ds :=
  List.forall_mem_append

/-- What is put before a text. -/
theorem controlFree_string_append {lead : String} (hlead : ControlFree lead.toList) (s : String) :
    ControlFree (lead ++ s).toList ↔ ControlFree s.toList := by
  rw [String.toList_append, controlFree_append]
  exact and_iff_right hlead

theorem controlFree_toDigits {b : Nat} (hb : 1 < b) (hdigit : b ≤ 16) (n : Nat) :
    ControlFree (Nat.toDigits b n) := by
  intro c hc
  have halnum := List.all_eq_true.mp (isAlphanum_toDigits hb hdigit n) c hc
  by_contra hcontrol
  rw [isAlphanum_eq_false_of_isControl (by simpa using hcontrol)] at halnum
  cases halnum

namespace Text

theorem isPrintable_eq_false_of_isControl (h : isControl c) : isPrintable c = false := by
  rcases isControl_iff.mp h with hlow | ⟨hlo, hhi⟩
  · exact isPrintable_eq_false_of_lt hlow
  · have hmem : (0x7f, 0xa0) ∈ unprintableRanges := by
      unfold unprintableRanges
      exact List.mem_toArray.mpr List.mem_cons_self
    have hrange : inRanges unprintableRanges c.toNat :=
      Array.any_eq_true'.mpr ⟨_, hmem, by simp; omega⟩
    rw [isPrintable, if_neg (by omega), hrange]
    rfl

theorem controlFree_escape {delimiter : Char} (hdelimiter : isControl delimiter = false)
    (c : Char) : ControlFree (escape delimiter c) := by
  unfold escape
  split_ifs with _ _ _ _ hslash hhex
  · decide
  · decide
  · decide
  · decide
  · have hc : isControl c = false := by
      rcases hslash with rfl | rfl
      · rfl
      · exact hdelimiter
    exact controlFree_cons.mpr ⟨rfl, controlFree_cons.mpr ⟨hc, controlFree_nil⟩⟩
  · have hopen : ControlFree ['\\', 'u', '\x7b'] := by decide
    have hclose : ControlFree ['\x7d'] := by decide
    have hdigits : ControlFree (Nat.toDigits 16 c.toNat) := controlFree_toDigits (by omega) le_rfl _
    exact controlFree_append.mpr ⟨controlFree_append.mpr ⟨hopen, hdigits⟩, hclose⟩
  -- What is not escaped can be printed.
  · have hc : isControl c = false := by
      by_contra hcontrol
      rw [isPrintable_eq_false_of_isControl (by simpa using hcontrol)] at hhex
      simp at hhex
    exact controlFree_cons.mpr ⟨hc, controlFree_nil⟩

theorem controlFree_quoted {delimiter : Char} (hdelimiter : isControl delimiter = false)
    (cs : List Char) : ControlFree (quoted delimiter cs) := by
  have hescaped : ControlFree (cs.flatMap (escape delimiter)) := by
    intro d hd
    obtain ⟨c, -, hd⟩ := List.mem_flatMap.mp hd
    exact controlFree_escape hdelimiter c d hd
  simp [quoted, hdelimiter, hescaped]

@[simp] theorem controlFree_quoteChar (c : Char) : ControlFree (quoteChar c).toList := by
  rw [quoteChar, String.toList_ofList]
  exact controlFree_quoted rfl [c]

@[simp] theorem controlFree_quote (s : String) : ControlFree (quote s).toList := by
  rw [quote, String.toList_ofList]
  exact controlFree_quoted rfl s.toList

end Text

@[simp] theorem Kind.controlFree_name (k : Kind) : ControlFree k.name.toList := by
  have hall : ∀ k ∈ all, ControlFree k.name.toList := by decide
  exact hall k k.mem_all

/-! What a message is made of. -/

theorem controlFree_atLine (message : String) (line : Nat) :
    ControlFree (atLine message line).toList ↔ ControlFree message.toList := by
  have hline : ControlFree (toString line).toList := by
    rw [Nat.toString_eq_ofList_toDigits, String.toList_ofList]
    exact controlFree_toDigits (by omega) (by omega) line
  have hopen : ControlFree " (line ".toList := by decide
  have hclose : ControlFree ")".toList := by decide
  simp only [atLine, String.toList_append, controlFree_append, hline, hopen, hclose, and_true]

theorem LexFault.controlFree_message (fault : LexFault) :
    ControlFree fault.message.toList ↔ ControlFree fault.unquoted := by
  cases fault with
  | illegalStringChar c =>
    refine (controlFree_string_append (by decide) _).trans ?_
    exact iff_of_true (controlFree_quoteChar c) controlFree_nil
  | malformedNumber => exact iff_of_true (by decide) controlFree_nil
  | unterminatedString => exact iff_of_true (by decide) controlFree_nil
  | unknownChar c =>
    refine (controlFree_string_append (by decide) _).trans ?_
    rw [Char.toString_eq_singleton, String.toList_singleton]
    exact Iff.rfl
  | incompleteNotEqual got =>
    refine (controlFree_string_append (by decide) _).trans ?_
    exact iff_of_true (controlFree_quoteChar got) controlFree_nil

/-- Text that is quoted, with its kind. -/
theorem controlFree_of_kind {lead : String} (hlead : ControlFree lead.toList) (text : String)
    (kind : Kind) : ControlFree (lead ++ quote text ++ " (" ++ kind.name ++ ")").toList := by
  have hopen : ControlFree " (".toList := by decide
  have hclose : ControlFree ")".toList := by decide
  simp only [String.toList_append, controlFree_append, hlead, controlFree_quote, hopen,
    kind.controlFree_name, hclose, and_self]

theorem ParseFault.controlFree_message (fault : ParseFault) :
    ControlFree fault.message.toList ↔ ControlFree fault.unquoted := by
  cases fault with
  | expected wanted found =>
    have hlead : ControlFree "Expected ".toList := by decide
    have hgot : ControlFree ", got ".toList := by decide
    have hmessage : ControlFree ("Expected " ++ wanted.name ++ ", got " ++ found.name).toList := by
      simp only [String.toList_append, controlFree_append, hlead, hgot, Kind.controlFree_name,
        and_self]
    exact iff_of_true hmessage controlFree_nil
  | missingComparator text => exact controlFree_string_append (by decide) text
  | undeclaredVariable name => exact controlFree_string_append (by decide) name
  | duplicateLabel name => exact controlFree_string_append (by decide) name
  | undeclaredLabel name => exact controlFree_string_append (by decide) name
  | invalidStatement text kind =>
    exact iff_of_true (controlFree_of_kind (by decide) text kind) controlFree_nil
  | unexpectedOperand text kind =>
    exact iff_of_true (controlFree_of_kind (by decide) text kind) controlFree_nil

theorem CompileError.controlFree_message (e : CompileError) :
    ControlFree e.message.toList ↔ ControlFree e.unquoted := by
  cases e with
  | lex e =>
    refine (controlFree_string_append (by decide) _).trans ?_
    exact (controlFree_atLine _ e.line).trans e.fault.controlFree_message
  | parse e =>
    refine (controlFree_string_append (by decide) _).trans ?_
    exact (controlFree_atLine _ e.line).trans e.fault.controlFree_message

end

/-! What a fault tells unquoted is read from the text. -/

theorem isControl_of_isFormulaChar {c : Char} (h : isFormulaChar c) : isControl c = false := by
  by_contra hcontrol
  have hcontrol : isControl c := by simpa using hcontrol
  have hmem : c ∈ ['.', '+', '-', '*', '/', '=', '!', '<', '>', ' '] := by
    simpa [isFormulaChar, isAlphanum_eq_false_of_isControl hcontrol] using h
  have hfree : ControlFree ['.', '+', '-', '*', '/', '=', '!', '<', '>', ' '] := by decide
  rw [hfree c hmem] at hcontrol
  cases hcontrol

theorem Kind.controlFree_of_admits {k : Kind} {cs : List Char} (h : k.admits cs)
    (hk : k ≠ .newline) : ControlFree cs := by
  have hformula (hcs : cs.all isFormulaChar) : ControlFree cs := fun c hc =>
    isControl_of_isFormulaChar (List.all_eq_true.mp hcs c hc)
  have hsymbol {text : List Char} (htext : ControlFree text) (hcs : decide (cs = text) = true) :
      ControlFree cs := by rwa [of_decide_eq_true hcs]
  cases k with
  | eof => exact hsymbol controlFree_nil h
  | newline => exact absurd rfl hk
  | number => exact hformula (all_isFormulaChar_of_isNumeral h)
  | ident => exact hformula (all_isFormulaChar_of_isName ((Bool.and_eq_true _ _).mp h).1)
  | string => exact fun c hc => (isStringPart_iff.mp (List.all_eq_true.mp h c hc)).2.1
  | keyword k => exact hsymbol (Kind.keyword k).controlFree_name h
  | equals => exact hsymbol (by decide) h
  | additive op => cases op <;> exact hsymbol (by decide) h
  | multiplicative op => cases op <;> exact hsymbol (by decide) h
  | comparison op => cases op <;> exact hsymbol (by decide) h

namespace Compilation
variable {m : Compilation} {t : Token} {e : ParseError} {us ts : List Token}

/-- A token that is refused, or the label before it. -/
theorem quotes_of_step (hfeed : start.feed us = .ok m) (h : m.step t = .error e) :
    ∃ u ∈ us ++ [t], e.fault.Quotes u := by
  cases hsettle : m.settle with
  | error e' =>
    obtain ⟨name, hname, rfl⟩ := settle_error hsettle
    rw [step, hsettle] at h
    cases h
    obtain ⟨hmem, hident⟩ := label_of_feed hfeed hname
    exact ⟨name, List.mem_append_left _ hmem, hident, rfl⟩
  | ok r =>
    rw [step, hsettle] at h
    exact ⟨t, List.mem_append_right us List.mem_cons_self, (accept_error h).2⟩

/-- At the end of the text it may also be a jump. -/
theorem quotes_of_finish (hfeed : start.feed us = .ok m) (h : m.finish t = .error e) :
    ∃ u ∈ us ++ [t], e.fault.Quotes u := by
  by_cases hjump : ∃ x, e.fault = .undeclaredLabel x
  · obtain ⟨line, fault⟩ := e
    obtain ⟨x, rfl⟩ := hjump
    obtain ⟨-, -, jump, hfind, rfl, rfl⟩ := finish_eq_undeclaredLabel_iff.mp h
    have hmem : jump ∈ m.jumps := List.mem_reverse.mp (List.mem_of_find?_eq_some hfind)
    obtain ⟨hread, hident⟩ := (jumps_of_feed hfeed jump hmem).resolve_left nofun
    exact ⟨jump, List.mem_append_left _ hread, hident, rfl⟩
  · cases hsettle : m.settle with
    | error e' =>
      refine quotes_of_step (t := t) hfeed ?_
      rw [finish, hsettle] at h
      rw [step, hsettle]
      exact h
    | ok r =>
      have hquotes := (finish_error hsettle h (not_exists.mp hjump)).2
      exact ⟨t, List.mem_append_right us List.mem_cons_self, hquotes⟩

theorem quotes_of_through (h : start.through ts = .error e) : ∃ u ∈ ts, e.fault.Quotes u := by
  obtain ⟨us, t, rest, m, rfl, -, hfeed, hcase⟩ := through_error h
  obtain ⟨u, hu, hquotes⟩ : ∃ u ∈ us ++ [t], e.fault.Quotes u := by
    rcases hcase with ⟨-, hstep⟩ | ⟨-, hfinish⟩
    · exact quotes_of_step hfeed hstep
    · exact quotes_of_finish hfeed hfinish
  rw [List.append_cons]
  exact ⟨u, List.mem_append_left rest hu, hquotes⟩

end Compilation

theorem Cursor.drain_admits {cur : Cursor} {ts : List Token} {o : Option LexError}
    (h : cur.drain = (ts, o)) : ∀ t ∈ ts, t.kind.admits t.text.toList := by
  fun_induction drain cur generalizing ts o with
  | case1 =>
    obtain ⟨rfl, -⟩ := Prod.mk.inj h
    simp
  | case2 cur t rest hnext ht =>
    obtain ⟨rfl, -⟩ := Prod.mk.inj h
    exact List.forall_mem_singleton.mpr (next_admits hnext)
  | case3 cur t rest hnext ht _ us e hrest ih =>
    obtain ⟨rfl, rfl⟩ := Prod.mk.inj h
    exact List.forall_mem_cons.mpr ⟨next_admits hnext, ih hrest⟩

section
variable {source : String} {e : ParseError} {t : Token} {fault : ParseFault}

/-- A token is refused by the run over the tokens that there are. -/
theorem through_of_compile (h : compile source = .error (.parse e)) :
    Compilation.start.through (Cursor.start source).drain.1 = .error e := by
  cases htokens : tokenize source with
  | ok ts =>
    rw [compile_of_tokenize htokens] at h
    rw [drain_of_tokenize htokens]
    cases hthrough : Compilation.start.through ts <;> rw [hthrough] at h <;> cases h
    rfl
  | error e' =>
    obtain ⟨ts, hdrain⟩ := drain_of_tokenize_error htokens
    rw [compile_of_drain_error hdrain] at h
    have h := Except.error.inj h
    rw [hdrain]
    unfold Compilation.firstError at h
    split at h
    · next hthrough =>
      split at h <;> cases h
      exact hthrough
    · cases h

theorem ParseFault.controlFree_unquoted (ht : t.kind.admits t.text.toList) (h : fault.Quotes t)
    (hne : fault ≠ .missingComparator "\n") : ControlFree fault.unquoted := by
  cases fault with
  | missingComparator text =>
    -- The token can be any, but only a newline has a control character in its text.
    obtain rfl : t.text = text := h
    refine Kind.controlFree_of_admits ht fun hk => hne ?_
    rw [hk] at ht
    have htext : t.text.toList = "\n".toList := of_decide_eq_true ht
    rw [String.toList_inj.mp htext]
  | undeclaredVariable name | duplicateLabel name | undeclaredLabel name =>
    obtain ⟨hk, rfl⟩ := h
    exact Kind.controlFree_of_admits ht (by simp [hk])
  | expected _ _ | invalidStatement _ _ | unexpectedOperand _ _ => exact controlFree_nil

theorem ParseFault.controlFree_unquoted_iff (h : compile source = .error (.parse e)) :
    ControlFree e.fault.unquoted ↔ e.fault ≠ .missingComparator "\n" := by
  constructor
  · intro hfree hfault
    rw [hfault] at hfree
    exact absurd hfree (by decide)
  · intro hne
    obtain ⟨t, ht, hquotes⟩ := Compilation.quotes_of_through (through_of_compile h)
    exact controlFree_unquoted (Cursor.drain_admits rfl t ht) hquotes hne

theorem LexFault.controlFree_unquoted_iff (fault : LexFault) :
    ControlFree fault.unquoted ↔ ∀ c, isControl c → fault ≠ .unknownChar c := by
  cases fault with
  | unknownChar c =>
    constructor
    · rintro hfree _ hcontrol ⟨⟩
      rw [hfree c List.mem_cons_self] at hcontrol
      cases hcontrol
    · intro hne
      have hc : isControl c = false := by
        by_contra hcontrol
        exact hne c (by simpa using hcontrol) rfl
      exact controlFree_cons.mpr ⟨hc, controlFree_nil⟩
  | _ => exact iff_of_true controlFree_nil fun _ _ => nofun

end

/-- A message is free of control characters but in two cases, which tell what stands in the text as
it is: a condition that ends with its line before there is a comparison in it, and a control
character outside of strings and comments. -/
theorem controlFree_message_iff {source : String} {e : CompileError}
    (h : compile source = .error e) : (∀ c ∈ e.message.toList, isControl c = false) ↔
      (∀ line, e ≠ .parse ⟨line, .missingComparator "\n"⟩) ∧
        ∀ line c, isControl c → e ≠ .lex ⟨line, .unknownChar c⟩ := by
  refine e.controlFree_message.trans ?_
  cases e with
  | lex e =>
    refine e.fault.controlFree_unquoted_iff.trans ⟨fun hne => ⟨fun _ => nofun, ?_⟩, ?_⟩
    · rintro line c hc ⟨⟩
      exact hne c hc rfl
    · rintro ⟨-, hne⟩ c hc hfault
      exact hne e.line c hc (by rw [← hfault])
  | parse e =>
    refine (ParseFault.controlFree_unquoted_iff h).trans ⟨fun hne => ⟨?_, fun _ _ _ => nofun⟩, ?_⟩
    · rintro line ⟨⟩
      exact hne rfl
    · rintro ⟨hne, -⟩ hfault
      exact hne e.line (by rw [← hfault])

/-- A tab in a string is quoted, and the end of the line is quoted where an operand is awaited, but
not where a comparison is. -/
theorem controlFree_message_iff_tab : ∃ tab operand comparison,
    compile "PRINT \"a\tb\"" = .error tab ∧ (∀ c ∈ tab.message.toList, isControl c = false) ∧
      compile "IF" = .error operand ∧ (∀ c ∈ operand.message.toList, isControl c = false) ∧
        compile "IF 1" = .error comparison ∧
          ¬∀ c ∈ comparison.message.toList, isControl c = false := by
  have htab : compile "PRINT \"a\tb\"" = .error (.lex ⟨1, .illegalStringChar '\t'⟩) := by cbv
  have hoperand : compile "IF" = .error (.parse ⟨1, .unexpectedOperand "\n" .newline⟩) := by cbv
  have hcomparison : compile "IF 1" = .error (.parse ⟨1, .missingComparator "\n"⟩) := by cbv
  refine ⟨_, _, _, htab, ?_, hoperand, ?_, hcomparison, fun hfree => ?_⟩
  · exact (controlFree_message_iff htab).mpr ⟨by simp, by simp⟩
  · exact (controlFree_message_iff hoperand).mpr ⟨by simp, by simp⟩
  · exact ((controlFree_message_iff hcomparison).mp hfree).1 1 rfl

/-- A message can break off its line. -/
theorem not_controlFree_message : ¬∀ source e, compile source = .error e →
    ∀ c ∈ e.message.toList, isControl c = false := by
  intro hall
  have h : compile "IF 1" = .error (.parse ⟨1, .missingComparator "\n"⟩) := by cbv
  have hmessage : (CompileError.parse ⟨1, .missingComparator "\n"⟩).message =
      "Parsing error. Expected comparison operator at: \n (line 1)" := by decide +kernel
  have hnewline := hall _ _ h '\n' (by rw [hmessage]; decide)
  cases hnewline

end TeenyToC
