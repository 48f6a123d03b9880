import TeenyToC.Proofs.Completion
import TeenyToC.Proofs.Emission
import TeenyToC.Proofs.Faults

/-! Where an error is found. Tokens up to the offending one begin some program that compiles, and
with it they begin none (`exists_offender`). So nothing is refused early or late: the state before
an error can be brought to an end, and no later token is looked at once a step has failed. A label
that stands twice is noticed one token late, and is still what is blamed. -/

namespace TeenyToC

/-- The words begin the tokens of a text that compiles. -/
def Viable (ws : List Word) : Prop :=
  ∃ source ts c, compile source = .ok c ∧ tokenize source = .ok ts ∧ ws <+: ts.map Token.word

/-! Viable words are those after which the program may still end. -/

section
variable {us ws : List Word}

theorem viable_of_completes {m : Compilation} (hus : ∀ w ∈ us, w.Valid)
    (hread : Compilation.start.read us = .ok m) (h : m.Completes) : Viable us := by
  obtain ⟨vs, s, hvs, hrest, hphase, hblocks, hjumps⟩ := h
  obtain ⟨ts, htokens, hts⟩ := tokenize_spaced (List.forall_mem_append.mpr ⟨hus, hvs⟩)
  have hnewline : Compilation.start.read (us ++ vs ++ [newlineWord]) = .ok s := by
    rw [Compilation.read_append_of_ok ((Compilation.read_append_of_ok hread).trans hrest),
      Compilation.read_singleton, Compilation.step_newline_of_statement hphase]
  have heof : (Token.ofWord eofWord).kind = .eof := rfl
  have hfinish := (Compilation.finish_eq_ok_iff heof).mpr ⟨hphase, hblocks, hjumps, rfl⟩
  have hwords : ts.map Token.word = us ++ vs ++ [newlineWord] ++ [eofWord] := by simp [hts]
  have haccepts : Accepts (us ++ vs ++ [newlineWord]) _ := ⟨s, _, hnewline, hfinish, rfl⟩
  refine ⟨_, ts, _, compile_eq_ok_iff.mpr ⟨ts, _, htokens, hwords, haccepts⟩, htokens, ?_⟩
  simp [hts]

theorem accepts_of_viable (h : Viable us) :
    ∃ ws c, (∀ w ∈ ws, w.Valid) ∧ us <+: ws ++ [eofWord] ∧ Accepts ws c := by
  obtain ⟨source, ts, c, hcompile, htokens, hprefix⟩ := h
  obtain ⟨ts', ws, htokens', hws, haccepts⟩ := compile_eq_ok_iff.mp hcompile
  obtain rfl : ts = ts' := by simpa [htokens] using htokens'
  exact ⟨ws, c, valid_of_tokenize htokens hws, hws ▸ hprefix, haccepts⟩

/-- The words lead to a state from which some words go on to the end. -/
theorem reads_of_viable (hus : ∀ w ∈ us, w.Valid) (h : Viable us) :
    ∃ vs m s s', Compilation.start.read us = .ok m ∧ m.read vs = .ok s ∧
      s.finish (.ofWord eofWord) = .ok s' := by
  obtain ⟨ws, c, -, hprefix, s, s', hread, hfinish, -⟩ := accepts_of_viable h
  rcases List.prefix_concat_iff.mp hprefix with rfl | ⟨vs, rfl⟩
  · exact absurd rfl (hus eofWord (by simp)).ne_eof
  · obtain ⟨m, hm, hrest⟩ := Compilation.read_append_eq_ok.mp hread
    exact ⟨vs, m, s, s', hm, hrest, hfinish⟩

theorem finishes_of_viable (h : Viable (us ++ [eofWord])) :
    ∃ m s, Compilation.start.read us = .ok m ∧ m.finish (.ofWord eofWord) = .ok s := by
  obtain ⟨ws, c, hws, hprefix, s, s', hread, hfinish, -⟩ := accepts_of_viable h
  rcases List.prefix_concat_iff.mp hprefix with heq | hmem
  · obtain rfl := List.append_cancel_right heq
    exact ⟨s, s', hread, hfinish⟩
  · exact absurd rfl (hws eofWord (hmem.subset (by simp))).ne_eof

theorem not_viable_of_settle {m : Compilation} {e : ParseError} (hus : ∀ w ∈ us, w.Valid)
    (hread : Compilation.start.read us = .ok m) (h : m.settle = .error e) : ¬Viable us := by
  intro hviable
  obtain ⟨vs, m', s, s', hm, hrest, hfinish⟩ := reads_of_viable hus hviable
  obtain rfl : m = m' := by simpa [hread] using hm
  cases vs with
  | nil =>
    cases hrest
    rw [Compilation.finish, h] at hfinish
    cases hfinish
  | cons v vs =>
    obtain ⟨r, hstep, -⟩ := Compilation.read_cons_eq_ok.mp hrest
    rw [Compilation.step, h] at hstep
    cases hstep

theorem not_viable_of_step {w : Word} {m : Compilation} {e : ParseError} (hus : ∀ w ∈ us, w.Valid)
    (hw : w.Valid) (hread : Compilation.start.read us = .ok m) (h : m.step (.ofWord w) = .error e) :
    ¬Viable (us ++ [w]) := by
  intro hviable
  have hvalid := List.forall_mem_append.mpr ⟨hus, List.forall_mem_singleton.mpr hw⟩
  obtain ⟨-, m', -, -, hm, -, -⟩ := reads_of_viable hvalid hviable
  rw [Compilation.read_append_of_ok hread, Compilation.read_singleton, h] at hm
  cases hm

theorem not_viable_of_finish {m : Compilation} {e : ParseError}
    (hread : Compilation.start.read us = .ok m) (h : m.finish (.ofWord eofWord) = .error e) :
    ¬Viable (us ++ [eofWord]) := by
  intro hviable
  obtain ⟨m', s, hm, hfinish⟩ := finishes_of_viable hviable
  obtain rfl : m = m' := by simpa [hread] using hm
  rw [h] at hfinish
  cases hfinish

end

namespace Compilation
variable {us rest : List Token} {t : Token} {m r : Compilation} {e : ParseError}

theorem read_start (h : start.feed us = .ok m) : start.read (us.map Token.word) = .ok m.unlined :=
  read_words h

theorem viable_of_feed (hus : ∀ u ∈ us, u.word.Valid) (hfeed : start.feed us = .ok m)
    (hsettle : m.settle = .ok r) : Viable (us.map Token.word) := by
  have hvalid : ∀ w ∈ us.map Token.word, w.Valid := List.forall_mem_map.mpr hus
  have hsettle' : m.unlined.settle = .ok r.unlined := by
    rw [← settle_unlined, hsettle]
    rfl
  exact viable_of_completes hvalid (read_start hfeed)
    (completes_of_live (live_of_read hvalid (read_start hfeed) hsettle'))

/-- A label in hand that cannot be registered is the last token. -/
theorem duplicate_of_settle (hus : ∀ u ∈ us, u.word.Valid) (hfeed : start.feed us = .ok m)
    (h : m.settle = .error e) : ∃ vs t, us = vs ++ [t] ∧ e.line = t.line ∧ e.fault.Quotes t ∧
      Viable (vs.map Token.word) ∧ ¬Viable ((vs ++ [t]).map Token.word) := by
  obtain ⟨name, hname, rfl⟩ := settle_error h
  have hvalid : ∀ w ∈ us.map Token.word, w.Valid := List.forall_mem_map.mpr hus
  have hdead : ¬Viable (us.map Token.word) := by
    have hsettle : m.unlined.settle =
        .error (ParseError.unlined ⟨name.line, .duplicateLabel name.text⟩) := by
      rw [← settle_unlined, h]
      rfl
    exact not_viable_of_settle hvalid (read_start hfeed) hsettle
  rcases List.eq_nil_or_concat us with rfl | ⟨vs, t, rfl⟩
  · cases hfeed
    cases hname
  · rw [List.concat_eq_append] at hus hfeed hdead ⊢
    obtain ⟨r, hvs, hstep⟩ := feed_concat hfeed
    obtain ⟨hr, hk, rfl⟩ := labelName_of_step hstep hname
    have hsettle : r.settle = .ok r := settle_of_not_labelled (by simp [hr])
    exact ⟨vs, t, rfl, rfl, ⟨hk, rfl⟩,
      viable_of_feed (List.forall_mem_append.mp hus).1 hvs hsettle, hdead⟩

/-- The tokens up to one that is refused, at the end of the text or before. -/
theorem offender_of_error (hus : ∀ u ∈ us, u.word.Valid)
    (ht : t.kind ≠ .eof → t.word.Valid) (heof : t.kind = .eof → t.word = eofWord)
    (hfeed : start.feed us = .ok m)
    (h : t.kind ≠ .eof ∧ m.step t = .error e ∨ t.kind = .eof ∧ m.finish t = .error e)
    (hne : ∀ x, e.fault ≠ .undeclaredLabel x) : ∃ vs t' rest, us ++ [t] = vs ++ t' :: rest ∧
      e.line = t'.line ∧ e.fault.Quotes t' ∧ Viable (vs.map Token.word) ∧
        ¬Viable ((vs ++ [t']).map Token.word) := by
  have hvalid : ∀ w ∈ us.map Token.word, w.Valid := List.forall_mem_map.mpr hus
  cases hsettle : m.settle with
  | error e' =>
    have he : e' = e := by
      rcases h with ⟨-, h⟩ | ⟨-, h⟩
      · rw [step, hsettle] at h
        cases h
        rfl
      · rw [finish, hsettle] at h
        cases h
        rfl
    obtain ⟨vs, t', rfl, hoffender⟩ := duplicate_of_settle hus hfeed (he ▸ hsettle)
    exact ⟨vs, t', [t], by simp, hoffender⟩
  | ok r =>
    have hviable := viable_of_feed hus hfeed hsettle
    rcases h with ⟨hk, hstep⟩ | ⟨hk, hfinish⟩
    · have haccept : r.accept t = .error e := by
        rwa [step, hsettle] at hstep
      obtain ⟨hline, hquotes⟩ := accept_error haccept
      have hdead : m.unlined.step (.ofWord t.word) = .error e.unlined := by
        have hunlined := step_unlined m t
        rw [hstep] at hunlined
        exact hunlined.symm
      refine ⟨us, t, [], rfl, hline, hquotes, hviable, ?_⟩
      rw [List.map_append]
      exact not_viable_of_step hvalid (ht hk) (read_start hfeed) hdead
    · obtain ⟨hline, hquotes⟩ := finish_error hsettle hfinish hne
      have hdead : m.unlined.finish (.ofWord eofWord) = .error e.unlined := by
        have hunlined := finish_unlined m t
        rw [hfinish, Token.unlined, heof hk] at hunlined
        exact hunlined.symm
      refine ⟨us, t, [], rfl, hline, hquotes, hviable, ?_⟩
      rw [List.map_append, List.map_singleton, heof hk]
      exact not_viable_of_finish (read_start hfeed) hdead

end Compilation

/-- The error is on the first token with which no program that compiles can begin, and quotes it. A
jump whose label is missing is another matter, since the label could still follow. -/
theorem exists_offender {source : String} {ts : List Token} {e : ParseError}
    (htokens : tokenize source = .ok ts) (h : compile source = .error (.parse e))
    (hne : ∀ x, e.fault ≠ .undeclaredLabel x) : ∃ i t, ts[i]? = some t ∧ e.line = t.line ∧
      e.fault.Quotes t ∧ Viable ((ts.take i).map Token.word) ∧
        ¬Viable ((ts.take (i + 1)).map Token.word) := by
  have hthrough : Compilation.start.through ts = .error e := by
    rw [compile_of_tokenize htokens] at h
    cases hresult : Compilation.start.through ts <;> rw [hresult] at h <;> cases h
    rfl
  obtain ⟨us, t, rest, m, hts, hus, hfeed, hcase⟩ := Compilation.through_error hthrough
  obtain ⟨vs, eof, hvs, heof, hvalid⟩ := tokenize_eq_append htokens
  have htoken (u : Token) (hu : u ∈ ts) : u.kind ≠ .eof ∧ u.word.Valid ∨ u.word = eofWord := by
    rw [hvs, List.mem_append, List.mem_singleton] at hu
    rcases hu with hu | rfl
    · exact .inl ⟨(hvalid u hu).ne_eof, hvalid u hu⟩
    · exact .inr heof
  have hword {u : Token} (hu : u ∈ ts) (hk : u.kind ≠ .eof) : u.word.Valid := by
    rcases htoken u hu with ⟨-, hvalid⟩ | heof
    · exact hvalid
    · exact absurd (congrArg Prod.fst heof) hk
  have hend (hk : t.kind = .eof) : t.word = eofWord := by
    rcases htoken t (by simp [hts]) with ⟨hne, -⟩ | heof
    · exact absurd hk hne
    · exact heof
  obtain ⟨xs, t', ys, hsplit, hline, hquotes, hviable, hdead⟩ := Compilation.offender_of_error
    (fun u hu => hword (by simp [hts, hu]) (hus u hu)) (hword (by simp [hts])) hend hfeed hcase hne
  have hts' : ts = xs ++ t' :: (ys ++ rest) := by
    have hassoc : us ++ t :: rest = (us ++ [t]) ++ rest := by simp
    rw [hts, hassoc, hsplit]
    simp
  have htake : ts.take (xs.length + 1) = xs ++ [t'] := by
    simp [hts', List.take_append, List.take_of_length_le]
  refine ⟨xs.length, t', by simp [hts'], hline, hquotes, ?_, htake ▸ hdead⟩
  simpa [hts'] using hviable

/-- What comes before a variable without a value can still be part of a program. -/
theorem exists_offender_operand : ∃ ts, tokenize "PRINT 1 + y" = .ok ts ∧
    compile "PRINT 1 + y" = .error (.parse ⟨1, .undeclaredVariable "y"⟩) ∧
      ∃ i t, ts[i]? = some t ∧ 1 = t.line ∧ (t.kind = .ident ∧ t.text = "y") ∧
        Viable ((ts.take i).map Token.word) ∧ ¬Viable ((ts.take (i + 1)).map Token.word) := by
  have htokens : tokenize "PRINT 1 + y" = .ok [⟨.keyword .print, "PRINT", 1⟩, ⟨.number, "1", 1⟩,
      ⟨.additive .plus, "+", 1⟩, ⟨.ident, "y", 1⟩, ⟨.newline, "\n", 1⟩, ⟨.eof, "", 2⟩] := by cbv
  have h : compile "PRINT 1 + y" = .error (.parse ⟨1, .undeclaredVariable "y"⟩) := by cbv
  exact ⟨_, htokens, h, exists_offender htokens h (by simp)⟩

end TeenyToC
