import TeenyToC.Proofs.Layout

/-! Empty lines mean nothing. A newline that is accepted leads to the start of a statement, where
further ones are passed over, and one that is refused is refused whatever follows it. So a run over
words is the run over their layout (`through_layout`), and texts with one layout are compiled alike,
but for the line on which the one fault of both is found (`compile_of_layout_eq`). -/

namespace TeenyToC

namespace Compilation
variable {s m : Compilation} {t : Token} {p : Place} {ws : List Word}

theorem statement_of_begin_newline (ht : t.kind = .newline) (hs : s.phase = .statement)
    (h : s.begin t = .ok m) : m.phase = .statement := by
  have hcloses : s.closes t = false := by
    unfold closes
    split
    · rfl
    · simp [ht]
  rw [begin, hcloses, if_neg Bool.false_ne_true, ht] at h
  cases h
  exact hs

theorem statement_of_leave_newline (ht : t.kind = .newline) (h : s.leave p t = .ok m) :
    m.phase = .statement := by
  unfold leave at h
  split at h
  case h_3 => cases h
  case h_4 =>
    obtain ⟨hentry, -⟩ := expect_eq_ok_iff.mp h
    rw [ht] at hentry
    cases hentry
  all_goals
    obtain ⟨-, rfl⟩ := expect_eq_ok_iff.mp h
    rfl

theorem operator_newline (ht : t.kind = .newline) : s.operator p t = s.leave p t := by
  unfold operator
  split
  case h_4 => rfl
  all_goals simp_all

/-- Wherever a newline is accepted, a statement may start after it. -/
theorem statement_of_step_newline (ht : t.kind = .newline) (h : s.step t = .ok m) :
    m.phase = .statement := by
  obtain ⟨r, -, haccept⟩ := bind_eq_ok.mp h
  unfold accept at haccept
  split at haccept
  · next hr => exact statement_of_begin_newline ht hr haccept
  · simp [printed, signed, operand, ht, fail] at haccept
  · simp [signed, operand, ht, fail] at haccept
  · simp [operand, ht, fail] at haccept
  · exact statement_of_leave_newline ht (operator_newline ht ▸ haccept)
  case h_11 | h_12 =>
    obtain ⟨-, rfl⟩ := expect_eq_ok_iff.mp haccept
    rfl
  all_goals
    obtain ⟨hk, -⟩ := expect_eq_ok_iff.mp haccept
    rw [ht] at hk
    cases hk

/-- The second of two newlines does nothing, be the first accepted or refused. -/
theorem step_newline_twice (s : Compilation) :
    (s.step (.ofWord newlineWord) >>= fun m => m.step (.ofWord newlineWord)) =
      s.step (.ofWord newlineWord) := by
  cases hstep : s.step (.ofWord newlineWord) with
  | error e => rfl
  | ok m => exact step_newline_of_statement (statement_of_step_newline rfl hstep)

theorem through_newline_newline (s : Compilation) (ts : List Token) :
    s.through (.ofWord newlineWord :: .ofWord newlineWord :: ts) =
      s.through (.ofWord newlineWord :: ts) := by
  have hne : (Token.ofWord newlineWord).kind ≠ .eof := nofun
  simp only [through_of_ne_eof hne]
  conv_rhs => rw [← step_newline_twice, bind_assoc]

theorem through_collapse (hws : ∀ w ∈ ws, w.1 = .newline → w = newlineWord) (s : Compilation) :
    s.through ((collapse ws).map .ofWord) = s.through (ws.map .ofWord) := by
  fun_induction collapse ws generalizing s with
  | case1 => rfl
  | case2 w ws hrun ih =>
    obtain ⟨hfirst, hrest⟩ := List.forall_mem_cons.mp hws
    rw [ih hrest]
    obtain ⟨v, hv, hk⟩ := Option.map_eq_some_iff.mp hrun.2
    obtain ⟨us, rfl⟩ := List.head?_eq_some_iff.mp hv
    obtain rfl : v = newlineWord := hrest v List.mem_cons_self hk
    obtain rfl : w = newlineWord := hfirst hrun.1
    exact (through_newline_newline s (us.map .ofWord)).symm
  | case3 w ws hrun ih =>
    have hrest := (List.forall_mem_cons.mp hws).2
    by_cases hw : (Token.ofWord w).kind = .eof
    · simp only [List.map_cons, through_of_eof hw]
    · simp only [List.map_cons, through_of_ne_eof hw]
      exact bind_congr fun m => ih hrest m

theorem through_dropWhile (hws : ∀ w ∈ ws, w.1 = .newline → w = newlineWord)
    (hs : s.phase = .statement) :
    s.through ((ws.dropWhile (·.1 = .newline)).map .ofWord) = s.through (ws.map .ofWord) := by
  induction ws with
  | nil => rfl
  | cons w ws ih =>
    obtain ⟨hfirst, hrest⟩ := List.forall_mem_cons.mp hws
    by_cases hk : w.1 = .newline
    · obtain rfl : w = newlineWord := hfirst hk
      have hne : (Token.ofWord newlineWord).kind ≠ .eof := nofun
      have hskip : s.through ((newlineWord :: ws).map .ofWord) = s.through (ws.map .ofWord) := by
        rw [List.map_cons, through_of_ne_eof hne, step_newline_of_statement hs]
        rfl
      rw [List.dropWhile_cons_of_pos rfl, ih hrest, hskip]
    · rw [List.dropWhile_cons_of_neg (by simpa using hk)]

/-- Between two statements only the layout of what follows counts. -/
theorem through_layout (hws : ∀ w ∈ ws, w.1 = .newline → w = newlineWord)
    (hs : s.phase = .statement) :
    s.through ((layout ws).map .ofWord) = s.through (ws.map .ofWord) := by
  have hrest : ∀ w ∈ ws.dropWhile (·.1 = .newline), w.1 = .newline → w = newlineWord :=
    fun w hw => hws w (List.dropWhile_subset _ hw)
  exact (through_collapse hrest s).trans (through_dropWhile hws hs)

end Compilation

section
variable {source : String} {ts : List Token}

theorem newline_of_tokenize (h : tokenize source = .ok ts) :
    ∀ w ∈ ts.map Token.word, w.1 = .newline → w = newlineWord := by
  obtain ⟨us, eof, rfl, heof, hvalid⟩ := tokenize_eq_append h
  intro w hw hk
  rw [List.map_append, List.map_singleton, heof] at hw
  rcases List.mem_append.mp hw with hw | hw
  · obtain ⟨t, ht, rfl⟩ := List.mem_map.mp hw
    exact (hvalid t ht).eq_of_text? hk rfl
  · obtain rfl := List.mem_singleton.mp hw
    cases hk

/-- But for its lines, a run over the tokens of a text is told by their layout. -/
theorem unlinedResult_of_tokenize (h : tokenize source = .ok ts) :
    Compilation.unlinedResult (Compilation.start.through ts) =
      Compilation.start.through ((layout (ts.map Token.word)).map .ofWord) := by
  rw [Compilation.through_layout (newline_of_tokenize h) rfl, Compilation.through_unlined,
    List.map_map]
  rfl

end

/-- Texts with one layout have one translation, or else one fault. -/
theorem compile_of_layout_eq {source source' : String} {ts ts' : List Token}
    (h : tokenize source = .ok ts) (h' : tokenize source' = .ok ts')
    (hlayout : layout (ts.map Token.word) = layout (ts'.map Token.word)) :
    (∃ c, compile source = .ok c ∧ compile source' = .ok c) ∨
      ∃ e e', compile source = .error (.parse e) ∧ compile source' = .error (.parse e') ∧
        e.fault = e'.fault := by
  have hresults : Compilation.unlinedResult (Compilation.start.through ts) =
      Compilation.unlinedResult (Compilation.start.through ts') := by
    rw [unlinedResult_of_tokenize h, unlinedResult_of_tokenize h', hlayout]
  rw [compile_of_tokenize h, compile_of_tokenize h']
  cases hrun : Compilation.start.through ts with
  | error e =>
    cases hrun' : Compilation.start.through ts' with
    | error e' =>
      rw [hrun, hrun'] at hresults
      have hfault : e.unlined.fault = e'.unlined.fault :=
        congrArg ParseError.fault (Except.error.inj hresults)
      exact .inr ⟨e, e', rfl, rfl, hfault⟩
    | ok s' =>
      rw [hrun, hrun'] at hresults
      cases hresults
  | ok s =>
    cases hrun' : Compilation.start.through ts' with
    | error e' =>
      rw [hrun, hrun'] at hresults
      cases hresults
    | ok s' =>
      rw [hrun, hrun'] at hresults
      have hcode : s.unlined.code = s'.unlined.code :=
        congrArg Compilation.code (Except.ok.inj hresults)
      exact .inl ⟨s.code, rfl, congrArg Except.ok hcode.symm⟩

/-- Empty lines in a block, and in the middle of a line, where they are refused. -/
theorem compile_of_layout_eq_refused :
    (∃ c ts ts', tokenize "IF 1 > 0 THEN\nENDIF" = .ok ts ∧
      tokenize "\nIF 1 > 0 THEN # one\n\nENDIF" = .ok ts' ∧
        layout (ts.map Token.word) = layout (ts'.map Token.word) ∧
          compile "IF 1 > 0 THEN\nENDIF" = .ok c ∧
            compile "\nIF 1 > 0 THEN # one\n\nENDIF" = .ok c) ∧
    ∃ line ts ts', tokenize "LET x =\n1" = .ok ts ∧ tokenize "\nLET x =\n\n1" = .ok ts' ∧
      layout (ts.map Token.word) = layout (ts'.map Token.word) ∧
        compile "LET x =\n1" = .error (.parse ⟨1, .unexpectedOperand "\n" .newline⟩) ∧
          compile "\nLET x =\n\n1" =
            .error (.parse ⟨line, .unexpectedOperand "\n" .newline⟩) := by
  constructor
  · have hts : tokenize "IF 1 > 0 THEN\nENDIF" = .ok [⟨.keyword (.head .cond), "IF", 1⟩,
        ⟨.number, "1", 1⟩, ⟨.comparison .gt, ">", 1⟩, ⟨.number, "0", 1⟩,
        ⟨.keyword (.entry .cond), "THEN", 1⟩, ⟨.newline, "\n", 1⟩,
        ⟨.keyword (.close .cond), "ENDIF", 2⟩, ⟨.newline, "\n", 2⟩, ⟨.eof, "", 3⟩] := by cbv
    have hts' : tokenize "\nIF 1 > 0 THEN # one\n\nENDIF" = .ok [⟨.newline, "\n", 1⟩,
        ⟨.keyword (.head .cond), "IF", 2⟩, ⟨.number, "1", 2⟩, ⟨.comparison .gt, ">", 2⟩,
        ⟨.number, "0", 2⟩, ⟨.keyword (.entry .cond), "THEN", 2⟩, ⟨.newline, "\n", 2⟩,
        ⟨.newline, "\n", 3⟩, ⟨.keyword (.close .cond), "ENDIF", 4⟩, ⟨.newline, "\n", 4⟩,
        ⟨.eof, "", 5⟩] := by cbv
    rcases compile_of_layout_eq hts hts' (by rfl) with ⟨c, h, h'⟩ | ⟨e, e', h, -, -⟩
    · exact ⟨c, _, _, hts, hts', by rfl, h, h'⟩
    · have hok : compile "IF 1 > 0 THEN\nENDIF" = .ok
          ⟨"#include <stdio.h>\nint main(void)\x7b\n",
            "if(1 > 0)\x7b\n\x7d\nreturn 0;\n\x7d\n"⟩ := by cbv
      rw [hok] at h
      cases h
  · have hts : tokenize "LET x =\n1" = .ok [⟨.keyword .assign, "LET", 1⟩, ⟨.ident, "x", 1⟩,
        ⟨.equals, "=", 1⟩, ⟨.newline, "\n", 1⟩, ⟨.number, "1", 2⟩, ⟨.newline, "\n", 2⟩,
        ⟨.eof, "", 3⟩] := by cbv
    have hts' : tokenize "\nLET x =\n\n1" = .ok [⟨.newline, "\n", 1⟩, ⟨.keyword .assign, "LET", 2⟩,
        ⟨.ident, "x", 2⟩, ⟨.equals, "=", 2⟩, ⟨.newline, "\n", 2⟩, ⟨.newline, "\n", 3⟩,
        ⟨.number, "1", 4⟩, ⟨.newline, "\n", 4⟩, ⟨.eof, "", 5⟩] := by cbv
    have hrefused : compile "LET x =\n1" =
        .error (.parse ⟨1, .unexpectedOperand "\n" .newline⟩) := by cbv
    rcases compile_of_layout_eq hts hts' (by rfl) with ⟨c, h, -⟩ | ⟨e, ⟨line, fault⟩, h, h', rfl⟩
    · rw [hrefused] at h
      cases h
    · rw [hrefused] at h
      cases h
      exact ⟨line, _, _, hts, hts', by rfl, hrefused, h'⟩

end TeenyToC
