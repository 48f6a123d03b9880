import TeenyToC.Proofs.Completion
import TeenyToC.Proofs.EmptyLines
import TeenyToC.Proofs.ScannerCalls
import TeenyToC.Proofs.UnresolvedJumps

/-! The end of the text. It stands right behind a newline, so that it is met between two statements
and nowhere else (`statement_of_feed`), and there it is refused only in an open block. All other
errors are on a line of the text, since they are found on a token that stands there, or on the label
or jump that was read before (`compile_error_cases`). -/

namespace TeenyToC

/-- The kinds that a fault names. -/
def ParseFault.kinds : ParseFault → List Kind
  | expected wanted found => [wanted, found]
  | invalidStatement _ kind | unexpectedOperand _ kind => [kind]
  | missingComparator _ | undeclaredVariable _ | duplicateLabel _ | undeclaredLabel _ => []

/-- The words that close these blocks, each on a line of its own. -/
def closings (bs : List Block) : List Word :=
  bs.flatMap fun b => [Keyword.word (.close b), newlineWord]

namespace Compilation

/-! A fault names the end of the text only where it has met it. -/

section Naming
variable {s m : Compilation} {p : Place} {t : Token} {e : ParseError}

theorem eof_of_expect {wanted : Kind} (h : expect t wanted s = .error e) (hwanted : wanted ≠ .eof)
    (he : .eof ∈ e.fault.kinds) : t.kind = .eof := by
  unfold expect at h
  split at h <;> cases h
  rcases List.mem_cons.mp he with heof | hmem
  · exact absurd heof.symm hwanted
  · exact (List.mem_singleton.mp hmem).symm

theorem eof_of_operand (h : s.operand p t = .error e) (he : .eof ∈ e.fault.kinds) :
    t.kind = .eof := by
  unfold operand at h
  split at h
  · cases h
  · split at h <;> cases h
    cases he
  · cases h
    exact (List.mem_singleton.mp he).symm

theorem eof_of_signed (h : s.signed p t = .error e) (he : .eof ∈ e.fault.kinds) :
    t.kind = .eof := by
  unfold signed at h
  split at h
  · cases h
  · exact eof_of_operand h he

theorem eof_of_leave (h : s.leave p t = .error e) (he : .eof ∈ e.fault.kinds) : t.kind = .eof := by
  unfold leave at h
  split at h
  case h_3 =>
    cases h
    cases he
  all_goals exact eof_of_expect h nofun he

theorem eof_of_accept (h : s.accept t = .error e) (he : .eof ∈ e.fault.kinds) : t.kind = .eof := by
  unfold accept at h
  split at h
  · unfold begin at h
    split at h
    · cases h
    · split at h <;> cases h
      exact (List.mem_singleton.mp he).symm
  · unfold printed at h
    split at h
    · cases h
    · exact eof_of_signed h he
  · exact eof_of_signed h he
  · exact eof_of_operand h he
  · unfold operator at h
    split at h
    case h_4 => exact eof_of_leave h he
    all_goals cases h
  all_goals exact eof_of_expect h nofun he

end Naming

/-! What is blamed has been read. -/

section Blame
variable {s m : Compilation} {t eof : Token} {e : ParseError} {us : List Token}

theorem jumps_of_feed (h : s.feed us = .ok m) :
    ∀ jump ∈ m.jumps, jump ∈ s.jumps ∨ jump ∈ us ∧ jump.kind = .ident := by
  induction us generalizing s with
  | nil =>
    cases h
    exact fun jump hjump => .inl hjump
  | cons u us ih =>
    rw [feed, List.foldlM_cons] at h
    obtain ⟨r, hstep, hfeed⟩ := bind_eq_ok.mp h
    intro jump hjump
    rcases ih hfeed jump hjump with hr | ⟨hus, hident⟩
    · rcases jumps_of_step hstep with hjumps | ⟨hk, hjumps⟩
      · exact .inl (hjumps ▸ hr)
      · rw [hjumps] at hr
        rcases List.mem_cons.mp hr with rfl | hs
        · exact .inr ⟨List.mem_cons_self, hk⟩
        · exact .inl hs
    · exact .inr ⟨List.mem_cons_of_mem u hus, hident⟩

theorem label_of_feed {name : Token} (h : start.feed us = .ok m) (hm : m.phase = .labelled name) :
    name ∈ us ∧ name.kind = .ident := by
  rcases List.eq_nil_or_concat us with rfl | ⟨vs, t, rfl⟩
  · cases h
    cases hm
  · rw [List.concat_eq_append] at h ⊢
    obtain ⟨r, -, hstep⟩ := feed_concat h
    obtain ⟨-, hk, rfl⟩ := labelName_of_step hstep hm
    exact ⟨List.mem_append_right vs List.mem_cons_self, hk⟩

theorem blame_of_step (hfeed : start.feed us = .ok m) (h : m.step t = .error e) :
    (∃ u ∈ us ++ [t], e.line = u.line) ∧ (.eof ∈ e.fault.kinds → t.kind = .eof) := by
  cases hsettle : m.settle with
  | error e' =>
    obtain ⟨name, hname, rfl⟩ := settle_error hsettle
    rw [step, hsettle] at h
    cases h
    exact ⟨⟨name, List.mem_append_left _ (label_of_feed hfeed hname).1, rfl⟩,
      fun he => absurd he List.not_mem_nil⟩
  | ok r =>
    rw [step, hsettle] at h
    have haccept : r.accept t = .error e := h
    exact ⟨⟨t, List.mem_append_right us List.mem_cons_self, (accept_error haccept).1⟩,
      eof_of_accept haccept⟩

/-- What is refused before the end of the text. -/
theorem blame_of_through (hus : ∀ u ∈ us, u.kind ≠ .eof) (h : start.through us = .error e) :
    (∃ u ∈ us, e.line = u.line) ∧ .eof ∉ e.fault.kinds := by
  obtain ⟨vs, t, rest, m, rfl, -, hfeed, hcase⟩ := through_error h
  have ht : t.kind ≠ .eof := hus t (List.mem_append_right vs List.mem_cons_self)
  obtain ⟨-, hstep⟩ := hcase.resolve_right fun h => ht h.1
  obtain ⟨⟨u, hu, hline⟩, hkinds⟩ := blame_of_step hfeed hstep
  refine ⟨⟨u, ?_, hline⟩, fun he => ht (hkinds he)⟩
  rw [List.append_cons]
  exact List.mem_append_left rest hu

/-- Between two statements, the end of the text is refused for an open block, or for a jump. -/
theorem finish_error_cases (hs : m.phase = .statement) (h : m.finish eof = .error e) :
    (∃ jump ∈ m.jumps, e = ⟨jump.line, .undeclaredLabel jump.text⟩) ∨
      ∃ b bs, m.blocks = b :: bs ∧ e = ⟨eof.line, .expected (.keyword (.close b)) eof.kind⟩ := by
  have hsettle : m.settle = .ok m := settle_of_not_labelled (by simp [hs])
  rw [finish, hsettle] at h
  simp only [bind, Except.bind, hs] at h
  cases hb : m.blocks with
  | nil =>
    rw [hb] at h
    simp only at h
    split at h
    · next jump hjump =>
      cases h
      exact .inl ⟨jump, List.mem_reverse.mp (List.mem_of_find?_eq_some hjump), rfl⟩
    · cases h
  | cons b bs =>
    rw [hb] at h
    cases h
    exact .inr ⟨b, bs, rfl, rfl⟩

theorem finish_of_open {b : Block} {bs : List Block} (hs : m.phase = .statement)
    (hb : m.blocks = b :: bs) :
    m.finish eof = .error ⟨eof.line, .expected (.keyword (.close b)) eof.kind⟩ := by
  have hsettle : m.settle = .ok m := settle_of_not_labelled (by simp [hs])
  rw [finish, hsettle]
  simp only [bind, Except.bind, hs, hb]
  rfl

end Blame

/-! Which blocks are open is told by what closes them. -/

section Closing
variable {s m : Compilation} {us : List Token}

theorem valid_closings (bs : List Block) : ∀ w ∈ closings bs, w.Valid := by
  intro w hw
  obtain ⟨b, -, hw⟩ := List.mem_flatMap.mp hw
  simp only [List.mem_cons, List.not_mem_nil, or_false] at hw
  rcases hw with rfl | rfl
  · exact Keyword.valid_word _
  · exact valid_newlineWord

theorem finishes_closings_iff (hs : s.phase = .statement) (bs : List Block) :
    s.Finishes (closings bs) ↔ s.blocks = bs := by
  induction bs generalizing s with
  | nil =>
    constructor
    · rintro ⟨s', hread, -, hblocks⟩
      cases hread
      exact hblocks
    · exact fun hb => ⟨s, rfl, hs, hb⟩
  | cons b bs ih =>
    constructor
    · intro h
      obtain ⟨s', hread, -⟩ := id h
      obtain ⟨m, hstep, -⟩ := read_cons_eq_ok.mp hread
      rw [step_statement hs] at hstep
      -- The first word is a closing keyword, which only the innermost block takes.
      rcases begin_inv (Keyword.valid_word _) hstep with
        ⟨hw, -⟩ | ⟨b', bs', hb, hw, -⟩ | ⟨k, hw, hk⟩
      · cases hw
      · obtain rfl : b = b' := by simpa [Keyword.word] using congrArg Prod.fst hw
        obtain ⟨r, hr, hblocks, hrest⟩ := Finishes.after_close hs hb h
        rw [hb, ← (ih hr).mp hrest, hblocks]
      · obtain rfl : Keyword.close b = k := by simpa [Keyword.word] using congrArg Prod.fst hw
        cases hk
    · intro hb
      obtain ⟨s', hread, hend⟩ := (ih (s := (s.write "\x7d\n").inside bs) hs).mpr rfl
      exact ⟨s', (read_close hs hb 0 (closings bs)).trans hread, hend⟩

/-- The tokens begin a regular program that only lacks these lines. -/
theorem blocks_eq_iff_regular (hus : ∀ u ∈ us, u.word.Valid) (hfeed : start.feed us = .ok m)
    (hs : m.phase = .statement) (bs : List Block) :
    m.blocks = bs ↔ Regular (us.map Token.word ++ closings bs) := by
  have hvalid : ∀ w ∈ us.map Token.word ++ closings bs, w.Valid :=
    List.forall_mem_append.mpr ⟨List.forall_mem_map.mpr hus, valid_closings bs⟩
  have hread : start.read (us.map Token.word) = .ok m.unlined := read_words hfeed
  have hunlined : m.unlined.phase = .statement := phase_unlined_eq_statement.mpr hs
  rw [regular_iff_finishes hvalid, Finishes, read_append_of_ok hread]
  exact (finishes_closings_iff hunlined bs).symm

end Closing

end Compilation

open Compilation

section
variable {source : String} {us : List Token} {eof : Token} {m : Compilation} {e : CompileError}

theorem tokens_of_tokenize (h : tokenize source = .ok (us ++ [eof])) :
    eof.kind = .eof ∧ (∀ u ∈ us, u.word.Valid) ∧
      ∃ vs, us = vs ++ [⟨.newline, "\n", 1 + source.toList.count '\n'⟩] := by
  obtain ⟨us', eof', hsplit, heof, hvalid⟩ := tokenize_eq_append h
  obtain ⟨rfl, heq⟩ := List.append_inj' hsplit rfl
  obtain rfl := List.singleton_inj.mp heq
  refine ⟨congrArg Prod.fst heof, hvalid, ?_⟩
  obtain ⟨vs, hvs, hmunches⟩ := munches_of_tokenize h
  obtain ⟨rfl, -⟩ := List.append_inj' hmunches rfl
  obtain ⟨-, ws, hws⟩ := hvs.exists_last (.blanks nofun)
  exact ⟨ws, hws⟩

/-- The end of the text is met at the start of a statement. -/
theorem statement_of_feed (h : tokenize source = .ok (us ++ [eof]))
    (hfeed : start.feed us = .ok m) : m.phase = .statement := by
  obtain ⟨-, -, vs, rfl⟩ := tokens_of_tokenize h
  obtain ⟨r, -, hstep⟩ := feed_concat hfeed
  exact statement_of_step_newline rfl hstep

/-- An error on a line of the text, which does not name its end. -/
structure Inside (source : String) (e : CompileError) : Prop where
  line : InText source e.line
  unnamed : ∀ fault, e = .parse fault → .eof ∉ fault.fault.kinds

theorem inside_parse {fault : ParseError} (hus : ∀ u ∈ us, InText source u.line)
    (h : (∃ u ∈ us, fault.line = u.line) ∧ .eof ∉ fault.fault.kinds) :
    Inside source (.parse fault) := by
  obtain ⟨⟨u, hu, hline⟩, hkinds⟩ := h
  constructor
  · rw [CompileError.line, hline]
    exact hus u hu
  · intro fault' heq
    rwa [← CompileError.parse.inj heq]

theorem inside_of_tokenize_error {e' : LexError} (htokens : tokenize source = .error e')
    (h : compile source = .error e) : Inside source e := by
  obtain ⟨ts, hdrain⟩ := drain_of_tokenize_error htokens
  have hne := Cursor.ne_eof_of_drain_error hdrain
  obtain ⟨hlines, -, hfault⟩ := (Cursor.stands_start source).lines_of_drain
  rw [hdrain] at hlines hfault
  rw [compile_of_drain_error hdrain] at h
  obtain rfl := Except.error.inj h
  have hlexical : Inside source (.lex e') := ⟨hfault e' rfl, fun _ => nofun⟩
  unfold firstError
  split
  · next fault hthrough =>
    split
    · exact inside_parse (fun u hu => hlines u hu (hne u hu)) (blame_of_through hne hthrough)
    · exact hlexical
  · exact hlexical

/-- A compilation fails at the end of the text, or on a line of it. -/
theorem compile_error_cases (h : compile source = .error e) :
    (∃ us eof m b bs, tokenize source = .ok (us ++ [eof]) ∧ start.feed us = .ok m ∧
      m.blocks = b :: bs ∧
        e = .parse ⟨source.toList.count '\n' + 2, .expected (.keyword (.close b)) .eof⟩) ∨
    Inside source e := by
  cases htokens : tokenize source with
  | error e' => exact .inr (inside_of_tokenize_error htokens h)
  | ok ts =>
    obtain ⟨us, eof, rfl, -⟩ := tokenize_eq_append htokens
    obtain ⟨heof, hus, -⟩ := tokens_of_tokenize htokens
    obtain ⟨hlines, hend, -⟩ := (Cursor.stands_start source).lines_of_drain
    rw [drain_of_tokenize htokens] at hlines hend
    have hne (u : Token) (hu : u ∈ us) : u.kind ≠ .eof := (hus u hu).ne_eof
    have hline (u : Token) (hu : u ∈ us) : InText source u.line :=
      hlines u (List.mem_append_left _ hu) (hne u hu)
    rw [compile_of_tokenize htokens, through_append hne] at h
    cases hfeed : start.feed us with
    | error fault =>
      rw [hfeed] at h
      obtain rfl : .parse fault = e := Except.error.inj h
      have hthrough : start.through us = .error fault := by
        have happend : start.through (us ++ []) = start.feed us >>= fun s => s.through [] :=
          through_append hne
        rw [List.append_nil, hfeed] at happend
        exact happend
      exact .inr (inside_parse hline (blame_of_through hne hthrough))
    | ok m =>
      have hphase := statement_of_feed htokens hfeed
      rw [hfeed] at h
      simp only [bind, Except.bind, through_of_eof heof] at h
      cases hfinish : m.finish eof with
      | ok r =>
        rw [hfinish] at h
        cases h
      | error fault =>
        rw [hfinish] at h
        obtain rfl : .parse fault = e := Except.error.inj h
        rcases finish_error_cases hphase hfinish with ⟨jump, hjump, rfl⟩ | ⟨b, bs, hb, rfl⟩
        -- The jump was read before, so the fault is not where it has been found out.
        · obtain ⟨hmem, -⟩ := (jumps_of_feed hfeed jump hjump).resolve_left nofun
          exact .inr (inside_parse hline ⟨⟨jump, hmem, rfl⟩, nofun⟩)
        · refine .inl ⟨us, eof, m, b, bs, rfl, hfeed, hb, ?_⟩
          rw [heof, hend eof (List.mem_append_right us List.mem_cons_self) heof]

end

/-- Of all errors that name the end of the text there is only the one for an open block. It is met
exactly if all tokens before the end are accepted and a block is open then, the innermost of which
should be closed, and it is on the line behind the text. The end always stands where a statement
could start, and the open blocks are those whose closing lines the program lacks. Every other error
is on a line of the text. -/
theorem compile_end_of_text (source : String) :
    (∀ e, compile source = .error (.parse e) → .eof ∈ e.fault.kinds →
      ∃ b, e.fault = .expected (.keyword (.close b)) .eof) ∧
    (∀ line b, compile source = .error (.parse ⟨line, .expected (.keyword (.close b)) .eof⟩) ↔
      line = source.toList.count '\n' + 2 ∧ ∃ us eof m bs, tokenize source = .ok (us ++ [eof]) ∧
        start.feed us = .ok m ∧ m.blocks = b :: bs) ∧
    (∀ us eof m, tokenize source = .ok (us ++ [eof]) → start.feed us = .ok m →
      m.phase = .statement ∧ ∀ bs, m.blocks = bs ↔ Regular (us.map Token.word ++ closings bs)) ∧
    ∀ e, compile source = .error e →
      (∀ line b, e ≠ .parse ⟨line, .expected (.keyword (.close b)) .eof⟩) →
        1 ≤ e.line ∧ e.line ≤ source.toList.count '\n' + 1 := by
  refine ⟨fun e h he => ?_, fun line b => ⟨fun h => ?_, ?_⟩, fun us eof m htokens hfeed => ?_,
    fun e h hne => ?_⟩
  · rcases compile_error_cases h with ⟨-, -, -, b, -, -, -, -, heq⟩ | hinside
    · exact ⟨b, congrArg ParseError.fault (CompileError.parse.inj heq)⟩
    · exact absurd he (hinside.unnamed e rfl)
  · rcases compile_error_cases h with ⟨us, eof, m, b', bs, htokens, hfeed, hb, heq⟩ | hinside
    · cases heq
      exact ⟨rfl, us, eof, m, bs, htokens, hfeed, hb⟩
    · exact absurd (List.mem_cons_of_mem _ List.mem_cons_self) (hinside.unnamed _ rfl)
  · rintro ⟨rfl, us, eof, m, bs, htokens, hfeed, hb⟩
    obtain ⟨heof, hus, -⟩ := tokens_of_tokenize htokens
    obtain ⟨-, hend, -⟩ := (Cursor.stands_start source).lines_of_drain
    rw [drain_of_tokenize htokens] at hend
    rw [compile_of_tokenize htokens, through_append fun u hu => (hus u hu).ne_eof, hfeed]
    simp only [bind, Except.bind, through_of_eof heof,
      finish_of_open (statement_of_feed htokens hfeed) hb, heof,
      hend eof (List.mem_append_right us List.mem_cons_self) heof]
    rfl
  · obtain ⟨-, hus, -⟩ := tokens_of_tokenize htokens
    have hphase := statement_of_feed htokens hfeed
    exact ⟨hphase, blocks_eq_iff_regular hus hfeed hphase⟩
  · rcases compile_error_cases h with ⟨-, -, -, b, -, -, -, -, rfl⟩ | hinside
    · exact absurd rfl (hne _ b)
    · exact hinside.line

/-- The inner one of two open blocks, and a line that ends where an operand is awaited. -/
theorem compile_end_of_text_loop :
    compile "IF 1 > 0 THEN\nWHILE 1 > 0 REPEAT" =
      .error (.parse ⟨3, .expected (.keyword (.close .loop)) .eof⟩) ∧
    (∃ b, ParseFault.expected (.keyword (.close .loop)) .eof =
      .expected (.keyword (.close b)) .eof) ∧
    (∃ us eof m bs, tokenize "IF 1 > 0 THEN\nWHILE 1 > 0 REPEAT" = .ok (us ++ [eof]) ∧
      start.feed us = .ok m ∧ m.blocks = .loop :: bs ∧ m.phase = .statement ∧
        Regular (us.map Token.word ++ closings (.loop :: bs))) ∧
    compile "\nIF 1 >" = .error (.parse ⟨2, .unexpectedOperand "\n" .newline⟩) ∧
      1 ≤ 2 ∧ 2 ≤ "\nIF 1 >".toList.count '\n' + 1 := by
  have hopen : compile "IF 1 > 0 THEN\nWHILE 1 > 0 REPEAT" =
      .error (.parse ⟨3, .expected (.keyword (.close .loop)) .eof⟩) := by cbv
  have hline : compile "\nIF 1 >" = .error (.parse ⟨2, .unexpectedOperand "\n" .newline⟩) := by cbv
  have hnames := (compile_end_of_text _).1 _ hopen (List.mem_cons_of_mem _ List.mem_cons_self)
  obtain ⟨-, us, eof, m, bs, htokens, hfeed, hb⟩ := ((compile_end_of_text _).2.1 3 .loop).mp hopen
  obtain ⟨hphase, hblocks⟩ := (compile_end_of_text _).2.2.1 us eof m htokens hfeed
  exact ⟨hopen, hnames, ⟨us, eof, m, bs, htokens, hfeed, hb, hphase, (hblocks _).mp hb⟩, hline,
    (compile_end_of_text _).2.2.2 _ hline fun _ _ h => by cases h⟩

end TeenyToC
