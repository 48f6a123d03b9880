import Mathlib
import TeenyToC.Proofs.Faults

/-! Which of two errors comes first. Two tokens have been read before the first is looked at, and
each token that is accepted lets one more be read. So a text with a lexical error is refused for a
token only if that token and the one after it stand before the error (`Compilation.firstError`), and
the list of the tokens alone decides what a text without one is refused for
(`compile_eq_through`). -/

namespace TeenyToC

namespace Compilation

/-- How many tokens of a finished list are accepted. Each moves the window on by one token. -/
def accepted (s : Compilation) : List Token → Nat
  | [] => 0
  | t :: ts =>
    if t.kind = .eof then 0
    else match s.step t with
      | .error _ => 0
      | .ok s => s.accepted ts + 1

/-- What is met first, a token that is refused or the lexical error after the tokens. -/
def firstError (s : Compilation) (ts : List Token) (e : LexError) : CompileError :=
  match s.through ts with
  | .error fault => if s.accepted ts + 2 ≤ ts.length then .parse fault else .lex e
  | .ok _ => .lex e

variable {s m : Compilation} {p : Place} {t : Token} {ts : List Token} {e : LexError}
  {fault : ParseError}

theorem accepted_of_ok (ht : t.kind ≠ .eof) (h : s.step t = .ok m) :
    s.accepted (t :: ts) = m.accepted ts + 1 := by
  rw [accepted, if_neg ht, h]

theorem accepted_of_error (ht : t.kind ≠ .eof) (h : s.step t = .error fault) :
    s.accepted (t :: ts) = 0 := by
  rw [accepted, if_neg ht, h]

/-- A lexical error right after the window. -/
theorem firstError_of_ok {ahead : Token} (ht : t.kind ≠ .eof) (h : s.step t = .ok m) :
    s.firstError [t, ahead] e = .lex e := by
  have haccepted : ¬s.accepted [t, ahead] + 2 ≤ [t, ahead].length := by
    rw [accepted_of_ok ht h, List.length_cons, List.length_singleton]
    omega
  unfold firstError
  split
  · exact if_neg haccepted
  · rfl

theorem firstError_of_error {ahead : Token} (ht : t.kind ≠ .eof) (h : s.step t = .error fault) :
    s.firstError (t :: ahead :: ts) e = .parse fault := by
  have hthrough : s.through (t :: ahead :: ts) = .error fault := by
    rw [through_of_ne_eof ht, h]
    rfl
  have haccepted : s.accepted (t :: ahead :: ts) + 2 ≤ (t :: ahead :: ts).length := by
    rw [accepted_of_error ht h, List.length_cons, List.length_cons]
    omega
  rw [firstError, hthrough]
  exact if_pos haccepted

/-- An accepted token moves the window on by one. -/
theorem firstError_step (ht : t.kind ≠ .eof) (h : s.step t = .ok m) :
    s.firstError (t :: ts) e = m.firstError ts e := by
  have hthrough : s.through (t :: ts) = m.through ts := by
    rw [through_of_ne_eof ht, h]
    rfl
  have haccepted : s.accepted (t :: ts) + 2 ≤ (t :: ts).length ↔
      m.accepted ts + 2 ≤ ts.length := by
    rw [accepted_of_ok ht h, List.length_cons]
    omega
  simp only [firstError, hthrough, haccepted]

theorem firstError_of_length_le (h : ts.length ≤ 1) : s.firstError ts e = .lex e := by
  unfold firstError
  split
  · exact if_neg (by omega)
  · rfl

/-! A missing label is found out at the end of the text and nowhere else. -/

theorem expect_ne_undeclaredLabel {wanted : Kind} {line : Nat} {x : String} :
    expect t wanted s ≠ .error ⟨line, .undeclaredLabel x⟩ := by
  unfold expect
  split <;> simp [fail]

theorem operand_ne_undeclaredLabel {line : Nat} {x : String} :
    s.operand p t ≠ .error ⟨line, .undeclaredLabel x⟩ := by
  intro h
  unfold operand at h
  repeat' split at h
  all_goals cases h

theorem signed_ne_undeclaredLabel {line : Nat} {x : String} :
    s.signed p t ≠ .error ⟨line, .undeclaredLabel x⟩ := by
  intro h
  unfold signed at h
  split at h
  · cases h
  · exact operand_ne_undeclaredLabel h

theorem accept_ne_undeclaredLabel {line : Nat} {x : String} :
    s.accept t ≠ .error ⟨line, .undeclaredLabel x⟩ := by
  intro h
  unfold accept at h
  split at h
  · simp only [begin] at h
    repeat' split at h
    all_goals cases h
  · unfold printed at h
    split at h
    · cases h
    · exact signed_ne_undeclaredLabel h
  · exact signed_ne_undeclaredLabel h
  · exact operand_ne_undeclaredLabel h
  · unfold operator at h
    split at h
    case h_4 =>
      unfold leave at h
      split at h
      case h_3 => cases h
      all_goals exact expect_ne_undeclaredLabel h
    all_goals cases h
  all_goals exact expect_ne_undeclaredLabel h

theorem step_ne_undeclaredLabel {line : Nat} {x : String} :
    s.step t ≠ .error ⟨line, .undeclaredLabel x⟩ := by
  intro h
  unfold step at h
  cases hsettle : s.settle with
  | error e =>
    obtain ⟨name, -, rfl⟩ := settle_error hsettle
    rw [hsettle] at h
    cases h
  | ok m =>
    rw [hsettle] at h
    exact accept_ne_undeclaredLabel h

theorem firstError_ne_undeclaredLabel (hts : ∀ t ∈ ts, t.kind ≠ .eof) {line : Nat} {x : String} :
    s.firstError ts e ≠ .parse ⟨line, .undeclaredLabel x⟩ := by
  intro h
  unfold firstError at h
  split at h
  · next fault hthrough =>
    split at h
    · obtain rfl := CompileError.parse.inj h
      obtain ⟨us, t, rest, m, rfl, -, -, ⟨-, hstep⟩ | ⟨ht, -⟩⟩ := through_error hthrough
      · exact step_ne_undeclaredLabel hstep
      · exact hts t (by simp) ht
    · cases h
  · cases h

end Compilation

theorem Cursor.ne_eof_of_drain_error {cur : Cursor} {ts : List Token} {e : LexError}
    (h : cur.drain = (ts, some e)) : ∀ t ∈ ts, t.kind ≠ .eof := by
  fun_induction drain cur generalizing ts with
  | case1 =>
    obtain ⟨rfl, -⟩ := Prod.mk.inj h
    simp
  | case2 => simp at h
  | case3 cur t rest hnext ht _ us e' hrest ih =>
    obtain ⟨rfl, rfl⟩ := Prod.mk.inj h
    exact List.forall_mem_cons.mpr ⟨ht, ih hrest⟩

/-- A run over a text with a lexical error, from any window before it. -/
theorem Window.run_of_drain_error {w : Window} {s : Compilation} {ts : List Token} {e : LexError}
    (hc : w.current.kind ≠ .eof) (hw : w.ahead.kind ≠ .eof) (h : w.cursor.drain = (ts, some e)) :
    (w.run s).1 = .error (s.firstError (w.current :: w.ahead :: ts) e) := by
  -- A token that is accepted brings the next one into the window, or else the lexical error.
  fun_induction run s w generalizing ts with
  | case1 s w hc' => exact absurd hc' hc
  | case2 s w hc' => exact absurd hc' hc
  | case3 s w _ _ fault =>
    rename_i hstep
    rw [Compilation.firstError_of_error hc hstep]
  | case4 s w _ _ m hstep e' rest =>
    rename_i hnext
    rw [Cursor.drain_of_error hnext] at h
    obtain ⟨rfl, he⟩ := Prod.mk.inj h
    obtain rfl := Option.some.inj he
    rw [Compilation.firstError_of_ok hc hstep]
  | case5 s w _ _ m hstep t rest hnext _ result events hrun =>
    rename_i ih
    rw [hrun] at ih
    rcases Cursor.next_of_drain_error h with ⟨rest', hnext'⟩ | ⟨t', rest', us, hnext', ht, hus⟩
    · simp [hnext] at hnext'
    · obtain ⟨rfl, rfl⟩ : t = t' ∧ rest = rest' := by simpa [hnext] using hnext'
      rw [Cursor.drain_of_ne_eof hnext ht, hus] at h
      obtain ⟨rfl, -⟩ := Prod.mk.inj h
      rw [Compilation.firstError_step hc hstep]
      exact ih hw ht hus

theorem compile_of_drain_error {source : String} {ts : List Token} {e : LexError}
    (h : (Cursor.start source).drain = (ts, some e)) :
    compile source = .error (Compilation.start.firstError ts e) := by
  rcases Cursor.next_of_drain_error h with ⟨cur, hnext⟩ | ⟨t, cur, us, hnext, ht, hus⟩
  · rw [Cursor.drain_of_error hnext] at h
    obtain ⟨rfl, -⟩ := Prod.mk.inj h
    rw [compile_of_next_error hnext, Compilation.firstError_of_length_le (by simp)]
  rw [Cursor.drain_of_ne_eof hnext ht, hus] at h
  obtain ⟨rfl, -⟩ := Prod.mk.inj h
  rcases Cursor.next_of_drain_error hus with ⟨rest, hnext'⟩ | ⟨ahead, rest, vs, hnext', ha, hvs⟩
  · rw [Cursor.drain_of_error hnext'] at hus
    obtain ⟨rfl, -⟩ := Prod.mk.inj hus
    rw [compile_of_ahead_error hnext hnext', Compilation.firstError_of_length_le (by simp)]
  · rw [Cursor.drain_of_ne_eof hnext' ha, hvs] at hus
    obtain ⟨rfl, -⟩ := Prod.mk.inj hus
    rw [compile_of_next hnext hnext', Window.run_of_drain_error ht ha hvs]
    rfl

/-- A run agrees with a finished list of tokens: it is the run over the list if there is one, and
otherwise its error is the first of the two that the tokens up to the lexical error allow. -/
theorem compile_eq_through (source : String) :
    (∀ ts, tokenize source = .ok ts →
      compile source = ((Compilation.start.through ts).mapError .parse).map Compilation.code) ∧
    ∀ e, tokenize source = .error e → ∃ ts, (Cursor.start source).drain = (ts, some e) ∧
      compile source = .error (Compilation.start.firstError ts e) ∧
        (∀ c, compile source ≠ .ok c) ∧
          ∀ line x, compile source ≠ .error (.parse ⟨line, .undeclaredLabel x⟩) := by
  refine ⟨fun ts => compile_of_tokenize, fun e h => ?_⟩
  obtain ⟨ts, hdrain⟩ := drain_of_tokenize_error h
  have hcompile := compile_of_drain_error hdrain
  refine ⟨ts, hdrain, hcompile, compile_ne_ok h, fun line x heq => ?_⟩
  rw [hcompile] at heq
  exact Compilation.firstError_ne_undeclaredLabel (Cursor.ne_eof_of_drain_error hdrain)
    (Except.error.inj heq)

/-- One more token before the lexical error lets the refused one be met first. -/
theorem compile_eq_through_refused :
    tokenize "LET = %" = .error ⟨1, .unknownChar '%'⟩ ∧
      compile "LET = %" = .error (.lex ⟨1, .unknownChar '%'⟩) ∧
        tokenize "LET = 1 %" = .error ⟨1, .unknownChar '%'⟩ ∧
          compile "LET = 1 %" = .error (.parse ⟨1, .expected .ident .equals⟩) ∧
            ∃ ts, tokenize "LET = 1" = .ok ts ∧ compile "LET = 1" =
              ((Compilation.start.through ts).mapError .parse).map Compilation.code := by
  have hnear : tokenize "LET = %" = .error ⟨1, .unknownChar '%'⟩ := by cbv
  have hfar : tokenize "LET = 1 %" = .error ⟨1, .unknownChar '%'⟩ := by cbv
  have htokens : tokenize "LET = 1" = .ok [⟨.keyword .assign, "LET", 1⟩, ⟨.equals, "=", 1⟩,
      ⟨.number, "1", 1⟩, ⟨.newline, "\n", 1⟩, ⟨.eof, "", 2⟩] := by cbv
  obtain ⟨us, hus, hcompile, -, -⟩ := (compile_eq_through "LET = %").2 _ hnear
  have hdrain : (Cursor.start "LET = %").drain =
      ([⟨.keyword .assign, "LET", 1⟩, ⟨.equals, "=", 1⟩], some ⟨1, .unknownChar '%'⟩) := by cbv
  obtain ⟨vs, hvs, hcompile', -, -⟩ := (compile_eq_through "LET = 1 %").2 _ hfar
  have hdrain' : (Cursor.start "LET = 1 %").drain =
      ([⟨.keyword .assign, "LET", 1⟩, ⟨.equals, "=", 1⟩, ⟨.number, "1", 1⟩],
        some ⟨1, .unknownChar '%'⟩) := by cbv
  obtain ⟨rfl, -⟩ := Prod.mk.inj (hus.symm.trans hdrain)
  obtain ⟨rfl, -⟩ := Prod.mk.inj (hvs.symm.trans hdrain')
  refine ⟨hnear, hcompile, hfar, hcompile', _, htokens, (compile_eq_through "LET = 1").1 _ htokens⟩

end TeenyToC
