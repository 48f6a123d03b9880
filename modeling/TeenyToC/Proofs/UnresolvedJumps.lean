import TeenyToC.Proofs.Acceptance
import TeenyToC.Proofs.Liveness
import TeenyToC.Proofs.Lookahead

/-! Jumps without a label. A compilation keeps the targets of its jumps in order (`targets_of_feed`)
and looks them up only at the end, when every label is known. So a text is refused for a jump
exactly if it could not be refused for anything else, and for the first one whose label is nowhere
in the program (`compile_undeclaredLabel_iff`). -/

namespace TeenyToC

/-- The tokens right behind a `GOTO`, the first of which is one if `GOTO` is in front of the list. -/
def targetsAfter (goto : Bool) : List Token → List Token
  | [] => []
  | t :: ts =>
    if goto then t :: targetsAfter (t.kind = .keyword .goto) ts
    else targetsAfter (t.kind = .keyword .goto) ts

def gotoTargets (ts : List Token) : List Token := targetsAfter false ts

/-- What a program has to keep to before its jumps are looked at. -/
structure Regular (ws : List Word) : Prop where
  derives : Derives Symbol.program (ws.map (·.1))
  assigned : AssignedBeforeRead (mentions .operand ws)
  distinct : (namesOf .label (mentions .operand ws)).Nodup

namespace Compilation

/-! A jump is recorded with the token behind its `GOTO`. -/

section Steps
variable {s m r : Compilation} {p : Place} {t : Token}

/-- The token is no `GOTO`, and none is in front of the next one. -/
def Passes (t : Token) (m : Compilation) : Prop := m.phase ≠ .gotoName ∧ t.kind ≠ .keyword .goto

theorem passes_operand (h : s.operand p t = .ok m) : Passes t m := by
  unfold operand at h
  split at h
  · next hk =>
    cases h
    exact ⟨nofun, by simp [hk]⟩
  · next hk =>
    split at h <;> cases h
    exact ⟨nofun, by simp [hk]⟩
  · cases h

theorem passes_signed (h : s.signed p t = .ok m) : Passes t m := by
  unfold signed at h
  split at h
  · next hk =>
    cases h
    exact ⟨nofun, by simp [hk]⟩
  · exact passes_operand h

theorem passes_printed (h : s.printed t = .ok m) : Passes t m := by
  unfold printed at h
  split at h
  · next hk =>
    cases h
    exact ⟨nofun, by simp [hk]⟩
  · exact passes_signed h

theorem passes_leave (h : s.leave p t = .ok m) : Passes t m := by
  unfold leave at h
  split at h
  case h_3 => cases h
  all_goals
    obtain ⟨hk, rfl⟩ := expect_eq_ok_iff.mp h
    exact ⟨nofun, by simp [hk]⟩

theorem passes_operator (h : s.operator p t = .ok m) : Passes t m := by
  unfold operator at h
  split at h
  case h_4 => exact passes_leave h
  all_goals
    next hk =>
      cases h
      exact ⟨nofun, by simp [hk]⟩

theorem goto_of_begin (hs : s.phase = .statement) (h : s.begin t = .ok m) :
    m.phase = .gotoName ↔ t.kind = .keyword .goto := by
  unfold begin at h
  split at h
  · next hcloses =>
    cases h
    have hk : t.kind ≠ .keyword .goto := by
      intro hk
      unfold closes at hcloses
      rw [hk] at hcloses
      split at hcloses <;> cases hcloses
    exact ⟨nofun, fun h => absurd h hk⟩
  · split at h <;> cases h <;> next hk => simp [hk, hs, await]

/-- `GOTO` is awaited by its target alone. -/
theorem goto_of_accept (h : s.accept t = .ok m) :
    m.phase = .gotoName ↔ t.kind = .keyword .goto := by
  have hpasses (h : Passes t m) : m.phase = .gotoName ↔ t.kind = .keyword .goto :=
    ⟨fun hm => absurd hm h.1, fun hk => absurd hk h.2⟩
  unfold accept at h
  split at h
  · next hs => exact goto_of_begin hs h
  · exact hpasses (passes_printed h)
  · exact hpasses (passes_signed h)
  · exact hpasses (passes_operand h)
  · exact hpasses (passes_operator h)
  all_goals
    obtain ⟨hk, rfl⟩ := expect_eq_ok_iff.mp h
    exact hpasses ⟨nofun, by simp [hk]⟩

theorem jumps_of_accept (h : s.accept t = .ok m) :
    m.jumps = if s.phase = .gotoName then t :: s.jumps else s.jumps := by
  split
  · next hs =>
    rw [accept, hs] at h
    obtain ⟨-, rfl⟩ := expect_eq_ok_iff.mp h
    rfl
  · next hs =>
    rcases accept_cases h with ⟨hjumps, -⟩ | ⟨-, -, rfl⟩ | ⟨hgoto, -⟩
    · exact hjumps
    · rfl
    · exact absurd hgoto hs

theorem goto_of_settle (h : s.settle = .ok r) : r.phase = .gotoName ↔ s.phase = .gotoName := by
  unfold settle at h
  split at h
  · next hs =>
    split at h <;> cases h
    simp [hs, writeLine]
  · cases h
    exact Iff.rfl

theorem targets_of_step (h : s.step t = .ok m) (ts : List Token) :
    s.jumps.reverse ++ targetsAfter (s.phase = .gotoName) (t :: ts) =
      m.jumps.reverse ++ targetsAfter (m.phase = .gotoName) ts := by
  obtain ⟨r, hsettle, haccept⟩ := bind_eq_ok.mp h
  have hgoto := goto_of_accept haccept
  rw [jumps_of_accept haccept, jumps_of_settle hsettle]
  simp only [goto_of_settle hsettle, hgoto, targetsAfter, decide_eq_true_eq]
  split
  · rw [List.reverse_cons, List.append_assoc, List.singleton_append]
  · rfl

/-- The jumps that are recorded, and what is left to record, are those of all tokens. -/
theorem targets_of_feed {us : List Token} (h : s.feed us = .ok m) (ts : List Token) :
    s.jumps.reverse ++ targetsAfter (s.phase = .gotoName) (us ++ ts) =
      m.jumps.reverse ++ targetsAfter (m.phase = .gotoName) ts := by
  induction us generalizing s with
  | nil =>
    cases h
    rfl
  | cons u us ih =>
    rw [feed, List.foldlM_cons] at h
    obtain ⟨r, hstep, hfeed⟩ := bind_eq_ok.mp h
    exact (targets_of_step hstep (us ++ ts)).trans (ih hfeed)

end Steps

/-! At the end every label is known. -/

section Ends
variable {s m : Compilation} {us : List Token} {eof : Token} {line : Nat} {x : String}

theorem feed_ne_undeclaredLabel : s.feed us ≠ .error ⟨line, .undeclaredLabel x⟩ := by
  induction us generalizing s with
  | nil => exact nofun
  | cons u us ih =>
    rw [feed, List.foldlM_cons]
    cases hstep : s.step u with
    | error e => exact fun h => step_ne_undeclaredLabel (hstep.trans h)
    | ok r => exact ih

theorem finish_eq_undeclaredLabel_iff :
    s.finish eof = .error ⟨line, .undeclaredLabel x⟩ ↔ s.phase = .statement ∧ s.blocks = [] ∧
      ∃ jump, s.unresolved? = some jump ∧ jump.text = x ∧ jump.line = line := by
  constructor
  · intro h
    cases hsettle : s.settle with
    | error e =>
      obtain ⟨name, -, rfl⟩ := settle_error hsettle
      rw [finish, hsettle] at h
      cases h
    | ok r =>
      rw [finish, hsettle] at h
      simp only [bind, Except.bind] at h
      split at h
      · next hphase hblocks =>
        obtain rfl : r = s := (phase_of_settle hsettle).resolve_left (by simp [hphase])
        split at h
        · next jump hjump =>
          cases h
          exact ⟨hphase, hblocks, jump, hjump, rfl, rfl⟩
        · cases h
      · cases h
      · exact absurd h accept_ne_undeclaredLabel
  · rintro ⟨hphase, hblocks, jump, hjump, rfl, rfl⟩
    have hsettle : s.settle = .ok s := settle_of_not_labelled (by simp [hphase])
    rw [finish, hsettle]
    simp only [bind, Except.bind, hphase, hblocks, hjump]
    rfl

/-- A program is regular if it is read up to a place where it can end. -/
theorem regular_iff_finishes {ws : List Word} (hws : ∀ w ∈ ws, w.Valid) :
    Regular ws ↔ start.Finishes ws := by
  constructor
  · rintro ⟨hderives, hassigned, hdistinct⟩
    obtain ⟨prog, hp⟩ := (derives_program_iff hws).mp hderives
    rw [mentions_of_parses hp] at hassigned hdistinct
    exact ⟨_, (read_parses hp).mpr ⟨admits_start_iff.mpr ⟨hassigned, hdistinct⟩, rfl⟩,
      phase_mentionAll prog.mentions, blocks_mentionAll prog.mentions⟩
  · intro h
    obtain ⟨prog, hp⟩ := parses_of_finishes h hws
    obtain ⟨m, hread, -⟩ := h
    obtain ⟨hadmits, -⟩ := (read_parses hp).mp hread
    rw [admits_start_iff, ← mentions_of_parses hp] at hadmits
    exact ⟨(derives_program_iff hws).mpr ⟨prog, hp⟩, hadmits.1, hadmits.2⟩

theorem phase_unlined_eq_statement : m.unlined.phase = .statement ↔ m.phase = .statement := by
  change m.phase.unlined = .statement ↔ _
  cases m.phase <;> simp [Phase.unlined]

theorem finishes_iff_feed : start.Finishes (us.map Token.word) ↔
    ∃ m, start.feed us = .ok m ∧ m.phase = .statement ∧ m.blocks = [] := by
  have hread : unlinedResult (start.feed us) = start.read (us.map Token.word) := feed_unlined us
  rw [Finishes, ← hread]
  cases start.feed us with
  | error e =>
    have hnone {e : ParseError} {P : Compilation → Prop} :
        ¬∃ m, (.error e : Except ParseError Compilation) = .ok m ∧ P m := by simp
    exact iff_of_false hnone hnone
  | ok m =>
    simp only [unlinedResult_ok, Except.ok.injEq, exists_eq_left', phase_unlined_eq_statement]
    rfl

/-- The labels and the jumps that a regular program leaves. -/
theorem names_of_feed (hus : ∀ u ∈ us, u.word.Valid) (h : start.feed us = .ok m)
    (hphase : m.phase = .statement) (hblocks : m.blocks = []) :
    m.labels = (namesOf .label (mentions .operand (us.map Token.word))).reverse ∧
      ∀ jump ∈ m.jumps, jump.kind = .ident := by
  have hread : start.read (us.map Token.word) = .ok m.unlined := read_words h
  obtain ⟨prog, hp⟩ := parses_of_finishes (finishes_iff_feed.mpr ⟨m, h, hphase, hblocks⟩)
    (List.forall_mem_map.mpr hus)
  obtain ⟨-, hm⟩ := (read_parses hp).mp hread
  have hlabels : m.unlined.labels = (start.mentionAll prog.mentions).labels := by
    rw [hm]
    rfl
  have hjumps : m.unlined.jumps = (start.mentionAll prog.mentions).jumps := by
    rw [hm]
    rfl
  rw [labels_mentionAll, ← mentions_of_parses hp] at hlabels
  rw [jumps_mentionAll] at hjumps
  refine ⟨hlabels.trans (List.append_nil _), fun jump hjump => ?_⟩
  have hmem : jump.unlined ∈ m.unlined.jumps := List.mem_map_of_mem hjump
  rw [hjumps, List.mem_append, List.mem_reverse, List.mem_map] at hmem
  rcases hmem with ⟨x, -, hx⟩ | hmem
  · exact (congrArg Token.kind hx).symm
  · cases hmem

theorem unresolved?_of_feed (hus : ∀ u ∈ us, u.word.Valid) (h : start.feed us = .ok m)
    (hphase : m.phase = .statement) (hblocks : m.blocks = []) (eof : Token) :
    m.unresolved? = (gotoTargets (us ++ [eof])).find?
      (·.text ∉ namesOf .label (mentions .operand (us.map Token.word))) := by
  have htargets := targets_of_feed h [eof]
  simp only [hphase, start, List.reverse_nil, List.nil_append] at htargets
  have hjumps : gotoTargets (us ++ [eof]) = m.jumps.reverse := by
    simpa [gotoTargets, targetsAfter] using htargets
  rw [unresolved?, hjumps, (names_of_feed hus h hphase hblocks).1]
  simp only [List.mem_reverse]

/-- What the run over finished tokens ends with. -/
theorem finish_of_feed_iff (hus : ∀ u ∈ us, u.word.Valid) :
    (∃ m, start.feed us = .ok m ∧ m.finish eof = .error ⟨line, .undeclaredLabel x⟩) ↔
      Regular (us.map Token.word) ∧ (gotoTargets (us ++ [eof])).find?
        (·.text ∉ namesOf .label (mentions .operand (us.map Token.word))) =
          some ⟨.ident, x, line⟩ := by
  rw [regular_iff_finishes (List.forall_mem_map.mpr hus), finishes_iff_feed]
  constructor
  · rintro ⟨m, hfeed, hfinish⟩
    obtain ⟨hphase, hblocks, jump, hjump, rfl, rfl⟩ := finish_eq_undeclaredLabel_iff.mp hfinish
    have hkind : jump.kind = .ident := by
      have hmem : jump ∈ m.jumps := List.mem_reverse.mp (List.mem_of_find?_eq_some hjump)
      exact (names_of_feed hus hfeed hphase hblocks).2 jump hmem
    refine ⟨⟨m, hfeed, hphase, hblocks⟩, ?_⟩
    rw [← unresolved?_of_feed hus hfeed hphase hblocks eof, hjump, ← hkind]
  · rintro ⟨⟨m, hfeed, hphase, hblocks⟩, hfind⟩
    rw [← unresolved?_of_feed hus hfeed hphase hblocks eof] at hfind
    exact ⟨m, hfeed, finish_eq_undeclaredLabel_iff.mpr ⟨hphase, hblocks, _, hfind, rfl, rfl⟩⟩

theorem compile_eq_undeclaredLabel_iff {source : String} (hne : ∀ u ∈ us, u.kind ≠ .eof)
    (heof : eof.kind = .eof) (h : tokenize source = .ok (us ++ [eof])) :
    compile source = .error (.parse ⟨line, .undeclaredLabel x⟩) ↔
      ∃ m, start.feed us = .ok m ∧ m.finish eof = .error ⟨line, .undeclaredLabel x⟩ := by
  rw [compile_of_tokenize h, through_append hne]
  cases hfeed : start.feed us with
  | error e =>
    refine iff_of_false (fun herror => ?_) fun ⟨_, hm, _⟩ => nomatch hm
    obtain rfl := CompileError.parse.inj (Except.error.inj herror)
    exact feed_ne_undeclaredLabel hfeed
  | ok m =>
    simp only [bind, Except.bind, through_of_eof heof, Except.ok.injEq, exists_eq_left']
    cases m.finish eof with
    | error e => exact ⟨fun h => by cases h; rfl, fun h => by cases h; rfl⟩
    | ok r => exact iff_of_false nofun nofun

end Ends

end Compilation

/-- A text is refused for a jump exactly if it is regular, and for the first of its jumps whose
label stands nowhere in it. So anything else that is wrong, wherever it is, comes first. -/
theorem compile_undeclaredLabel_iff (source : String) :
    (∀ line x, compile source = .error (.parse ⟨line, .undeclaredLabel x⟩) ↔
      ∃ ts ws, tokenize source = .ok ts ∧ ts.map Token.word = ws ++ [eofWord] ∧ Regular ws ∧
        (gotoTargets ts).find? (·.text ∉ namesOf .label (mentions .operand ws)) =
          some ⟨.ident, x, line⟩) ∧
    ((¬∃ ts ws, tokenize source = .ok ts ∧ ts.map Token.word = ws ++ [eofWord] ∧ Regular ws) →
      ∃ e, compile source = .error e ∧ ∀ line x, e ≠ .parse ⟨line, .undeclaredLabel x⟩) := by
  have hiff (line : Nat) (x : String) :
      compile source = .error (.parse ⟨line, .undeclaredLabel x⟩) ↔
        ∃ ts ws, tokenize source = .ok ts ∧ ts.map Token.word = ws ++ [eofWord] ∧ Regular ws ∧
          (gotoTargets ts).find? (·.text ∉ namesOf .label (mentions .operand ws)) =
            some ⟨.ident, x, line⟩ := by
    cases htokens : tokenize source with
    | error e =>
      obtain ⟨ts, hdrain⟩ := drain_of_tokenize_error htokens
      rw [compile_of_drain_error hdrain]
      refine iff_of_false (fun h => ?_) fun ⟨_, _, h, _⟩ => nomatch h
      exact Compilation.firstError_ne_undeclaredLabel (Cursor.ne_eof_of_drain_error hdrain)
        (Except.error.inj h)
    | ok ts =>
      obtain ⟨us, eof, rfl, heof, hus⟩ := tokenize_eq_append htokens
      rw [Compilation.compile_eq_undeclaredLabel_iff (fun u hu => (hus u hu).ne_eof)
        (congrArg Prod.fst heof) htokens, Compilation.finish_of_feed_iff hus]
      constructor
      · intro h
        exact ⟨us ++ [eof], us.map Token.word, rfl, by simp [heof], h⟩
      · rintro ⟨_, ws, hts, hws, h⟩
        cases hts
        rw [List.map_append, List.map_singleton, heof] at hws
        rwa [List.append_cancel_right hws]
  refine ⟨hiff, fun hrules => ?_⟩
  cases hcompile : compile source with
  | ok c =>
    obtain ⟨ts, ws, hts, hws, haccepts⟩ := compile_eq_ok_iff.mp hcompile
    have hregular : Regular ws := (Compilation.regular_iff_finishes
      (valid_of_tokenize hts hws)).mpr (finishes_of_accepts haccepts)
    exact absurd ⟨ts, ws, hts, hws, hregular⟩ hrules
  | error e =>
    refine ⟨e, rfl, fun line x he => hrules ?_⟩
    obtain ⟨ts, ws, hts, hws, hregular, -⟩ := (hiff line x).mp (he ▸ hcompile)
    exact ⟨ts, ws, hts, hws, hregular⟩

/-- The first jump has its label in a block behind it, and the second has none. Where a label stands
twice, no jump is looked at. -/
theorem compile_undeclaredLabel_iff_later :
    compile "GOTO a\nGOTO b\nIF 1 > 0 THEN\nLABEL a\nENDIF\nGOTO c" =
      .error (.parse ⟨2, .undeclaredLabel "b"⟩) ∧
    (∃ ts ws, tokenize "GOTO a\nGOTO b\nIF 1 > 0 THEN\nLABEL a\nENDIF\nGOTO c" = .ok ts ∧
      ts.map Token.word = ws ++ [eofWord] ∧ Regular ws ∧
        (gotoTargets ts).find? (·.text ∉ namesOf .label (mentions .operand ws)) =
          some ⟨.ident, "b", 2⟩) ∧
    (¬∃ ts ws, tokenize "GOTO b\nLABEL a\nLABEL a" = .ok ts ∧
      ts.map Token.word = ws ++ [eofWord] ∧ Regular ws) ∧
    ∃ e, compile "GOTO b\nLABEL a\nLABEL a" = .error e ∧
      ∀ line x, e ≠ .parse ⟨line, .undeclaredLabel x⟩ := by
  have hcompile : compile "GOTO a\nGOTO b\nIF 1 > 0 THEN\nLABEL a\nENDIF\nGOTO c" =
      .error (.parse ⟨2, .undeclaredLabel "b"⟩) := by cbv
  have htokens : tokenize "GOTO b\nLABEL a\nLABEL a" = .ok ([⟨.keyword .goto, "GOTO", 1⟩,
      ⟨.ident, "b", 1⟩, ⟨.newline, "\n", 1⟩, ⟨.keyword .label, "LABEL", 2⟩, ⟨.ident, "a", 2⟩,
      ⟨.newline, "\n", 2⟩, ⟨.keyword .label, "LABEL", 3⟩, ⟨.ident, "a", 3⟩,
      ⟨.newline, "\n", 3⟩] ++ [⟨.eof, "", 4⟩]) := by cbv
  have hrules : ¬∃ ts ws, tokenize "GOTO b\nLABEL a\nLABEL a" = .ok ts ∧
      ts.map Token.word = ws ++ [eofWord] ∧ Regular ws := by
    rintro ⟨ts, ws, hts, hws, hregular⟩
    rw [htokens] at hts
    cases hts
    rw [List.map_append] at hws
    obtain ⟨rfl, -⟩ := List.append_inj' hws rfl
    exact absurd hregular.distinct (by decide)
  exact ⟨hcompile, ((compile_undeclaredLabel_iff _).1 2 "b").mp hcompile, hrules,
    (compile_undeclaredLabel_iff _).2 hrules⟩

end TeenyToC
