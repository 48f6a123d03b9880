import TeenyToC.Compilation.Run
import TeenyToC.Proofs.Tokenization

/-! Compilation of a finished list of tokens. The window of a run only decides which of two errors
is met first: a program that can be scanned is compiled as the list of its tokens is
(`compile_of_tokenize`), and one that cannot is never accepted (`compile_ne_ok`). -/

namespace TeenyToC

theorem bind_eq_ok {ε α β : Type} {x : Except ε α} {f : α → Except ε β} {b : β} :
    (x >>= f) = .ok b ↔ ∃ a, x = .ok a ∧ f a = .ok b := by
  cases x with
  | error e => simp [bind, Except.bind]
  | ok a => simp [bind, Except.bind]

namespace Compilation

/-- The steps over tokens before the end of the text. -/
def feed (s : Compilation) (ts : List Token) : Except ParseError Compilation := ts.foldlM step s

/-- The steps through a list of tokens, up to the one that stands for the end of the text. -/
def through (s : Compilation) : List Token → Except ParseError Compilation
  | [] => .ok s
  | t :: ts => if t.kind = .eof then s.finish t else do (← s.step t).through ts

variable {s : Compilation} {t : Token} {ts us : List Token}

theorem through_of_eof (ht : t.kind = .eof) : s.through (t :: ts) = s.finish t := by
  rw [through, if_pos ht]

theorem through_of_ne_eof (ht : t.kind ≠ .eof) :
    s.through (t :: ts) = s.step t >>= fun s => s.through ts := by
  rw [through, if_neg ht]

theorem through_append (h : ∀ u ∈ us, u.kind ≠ .eof) :
    s.through (us ++ ts) = s.feed us >>= fun s => s.through ts := by
  induction us generalizing s with
  | nil => rfl
  | cons u us ih =>
    obtain ⟨hu, hus⟩ := List.forall_mem_cons.mp h
    simp only [List.cons_append, through_of_ne_eof hu, feed, List.foldlM_cons, bind_assoc]
    exact bind_congr fun s => ih hus

/-- Nothing is read beyond the end of the text. -/
theorem through_append_eof (us ts : List Token) (ht : t.kind = .eof) :
    s.through (us ++ t :: ts) = s.through (us ++ [t]) := by
  induction us generalizing s with
  | nil => simp only [List.nil_append, through_of_eof ht]
  | cons u us ih => simp only [List.cons_append, through, ih]

end Compilation

namespace Cursor

theorem drain_of_rest_nil {cur : Cursor} (h : cur.rest = []) :
    cur.next = (.ok ⟨.eof, "", cur.line⟩, cur) ∧ cur.drain = ([⟨.eof, "", cur.line⟩], none) := by
  obtain ⟨rest, line⟩ := cur
  subst h
  exact ⟨rfl, drain_of_eof rfl rfl⟩

theorem rest_of_next_eof {cur rest : Cursor} {t : Token} (h : cur.next = (.ok t, rest))
    (ht : t.kind = .eof) : rest.rest = [] := by
  unfold next at h
  split at h
  · next x r hscan =>
    cases h
    cases hcs : skipTrivia cur.rest with
    | nil =>
      rw [hcs] at hscan
      cases hscan
      rfl
    | cons c cs =>
      rw [hcs] at hscan
      exact absurd ht (scan_ne_eof hscan)
  · cases h

theorem next_of_drain {cur : Cursor} {ts : List Token} (h : cur.drain = (ts, none)) :
    ∃ t rest, cur.next = (.ok t, rest) ∧ (t.kind = .eof ∧ ts = [t] ∧ rest.rest = [] ∨
      t.kind ≠ .eof ∧ ∃ us, ts = t :: us ∧ rest.drain = (us, none)) := by
  rcases hnext : cur.next with ⟨e | t, rest⟩
  · rw [drain_of_error hnext] at h
    cases h
  refine ⟨t, rest, rfl, ?_⟩
  by_cases ht : t.kind = .eof
  · rw [drain_of_eof hnext ht] at h
    exact .inl ⟨ht, (Prod.mk.inj h).1.symm, rest_of_next_eof hnext ht⟩
  · rw [drain_of_ne_eof hnext ht] at h
    obtain ⟨rfl, hrest⟩ := Prod.mk.inj h
    exact .inr ⟨ht, rest.drain.1, rfl, Prod.ext rfl hrest⟩

theorem next_of_drain_error {cur : Cursor} {ts : List Token} {e : LexError}
    (h : cur.drain = (ts, some e)) :
    (∃ rest, cur.next = (.error e, rest)) ∨
      ∃ t rest us, cur.next = (.ok t, rest) ∧ t.kind ≠ .eof ∧ rest.drain = (us, some e) := by
  rcases hnext : cur.next with ⟨e' | t, rest⟩
  · rw [drain_of_error hnext] at h
    cases h
    exact .inl ⟨rest, rfl⟩
  · have ht : t.kind ≠ .eof := by
      intro ht
      rw [drain_of_eof hnext ht] at h
      cases h
    rw [drain_of_ne_eof hnext ht] at h
    exact .inr ⟨t, rest, rest.drain.1, rfl, ht, Prod.ext rfl (Prod.mk.inj h).2⟩

end Cursor

namespace Window
variable {w : Window} {s : Compilation} {ts : List Token} {e : LexError}

/-- A run over a program without lexical errors. Once the end of the text is in the window, nothing
is left to read. -/
theorem run_of_drain (hw : w.ahead.kind = .eof → w.cursor.rest = [])
    (h : w.cursor.drain = (ts, none)) :
    (w.run s).1 = (s.through (w.current :: w.ahead :: ts)).mapError .parse := by
  fun_induction run s w generalizing ts with
  | case1 s w hc e hfinish =>
    rw [Compilation.through_of_eof hc, hfinish]
    rfl
  | case2 s w hc s' hfinish =>
    rw [Compilation.through_of_eof hc, hfinish]
    rfl
  | case3 s w hc _ e =>
    rename_i hstep
    rw [Compilation.through_of_ne_eof hc, hstep]
    rfl
  | case4 s w hc _ s' hstep e rest =>
    rename_i hnext
    rw [Cursor.drain_of_error hnext] at h
    cases h
  | case5 s w hc _ s' hstep t rest hnext _ result events hrun =>
    rename_i ih
    rw [hrun] at ih
    rw [Compilation.through_of_ne_eof hc, hstep]
    change result = (s'.through (w.ahead :: ts)).mapError .parse
    obtain ⟨t', rest', hnext', hcur⟩ := Cursor.next_of_drain h
    obtain ⟨rfl, rfl⟩ : t = t' ∧ rest = rest' := by simpa [hnext] using hnext'
    -- At the end of the text the run reads the end once more, which `through` does not look at.
    rcases hcur with ⟨ht, rfl, hrest⟩ | ⟨ht, us, rfl, hus⟩
    · apply (ih (fun _ => hrest) (Cursor.drain_of_rest_nil hrest).2).trans
      exact congrArg _ (Compilation.through_append_eof [w.ahead] _ ht)
    · exact ih (fun he => absurd he ht) hus

/-- A run from the front of a program without lexical errors. -/
theorem exists_prime {cur : Cursor} (h : cur.drain = (ts, none)) : ∃ w events,
    prime cur = (.ok w, events) ∧ ∀ s : Compilation,
      (w.run s).1 = (s.through ts).mapError .parse := by
  obtain ⟨t, mid, hnext, hmid⟩ := Cursor.next_of_drain h
  have hdrain : ∃ us, mid.drain = (us, none) ∧
      ∀ s : Compilation, s.through ts = s.through (t :: us) := by
    rcases hmid with ⟨ht, rfl, hrest⟩ | ⟨_, us, rfl, hus⟩
    · refine ⟨_, (Cursor.drain_of_rest_nil hrest).2, fun s => ?_⟩
      rw [Compilation.through_of_eof ht, Compilation.through_of_eof ht]
    · exact ⟨us, hus, fun s => rfl⟩
  obtain ⟨us, hus, hthrough⟩ := hdrain
  obtain ⟨ahead, rest, hnext', hrest⟩ := Cursor.next_of_drain hus
  have hprime : prime cur =
      (.ok ⟨t, ahead, rest⟩, [.scanned (.ok t), .scanned (.ok ahead)]) := by
    simp only [prime, hnext, hnext']
  refine ⟨_, _, hprime, fun s => ?_⟩
  rw [hthrough]
  rcases hrest with ⟨ha, rfl, hnil⟩ | ⟨ha, vs, rfl, hvs⟩
  · rw [run_of_drain (fun _ => hnil) (Cursor.drain_of_rest_nil hnil).2]
    exact congrArg (Except.mapError CompileError.parse) (Compilation.through_append_eof [t] _ ha)
  · rw [run_of_drain (fun h => absurd h ha) hvs]

/-- A program with a lexical error is not accepted, whichever error comes first. -/
theorem run_ne_ok_of_drain (hc : w.current.kind ≠ .eof) (hw : w.ahead.kind ≠ .eof)
    (h : w.cursor.drain = (ts, some e)) (s' : Compilation) : (w.run s).1 ≠ .ok s' := by
  fun_induction run s w generalizing ts with
  | case1 s w hc' => exact absurd hc' hc
  | case2 s w hc' => exact absurd hc' hc
  | case3 => simp
  | case4 => simp
  | case5 s w _ _ s' hstep t rest hnext _ result events hrun =>
    rename_i ih
    rw [hrun] at ih
    rcases Cursor.next_of_drain_error h with ⟨rest', hnext'⟩ | ⟨t', rest', us, hnext', ht, hus⟩
    · simp [hnext] at hnext'
    · obtain ⟨rfl, rfl⟩ : t = t' ∧ rest = rest' := by simpa [hnext] using hnext'
      exact ih hw ht hus

end Window

section
variable {source : String} {t ahead : Token} {cur rest : Cursor} {ts : List Token} {e : LexError}

theorem compile_of_next (h : (Cursor.start source).next = (.ok t, cur))
    (h' : cur.next = (.ok ahead, rest)) :
    compile source = (Window.run .start ⟨t, ahead, rest⟩).1.map Compilation.code := by
  simp only [compile, Cursor.compile, Window.prime, h, h']

theorem compile_of_next_error (h : (Cursor.start source).next = (.error e, cur)) :
    compile source = .error (.lex e) := by
  simp only [compile, Cursor.compile, Window.prime, h]

theorem compile_of_ahead_error (h : (Cursor.start source).next = (.ok t, cur))
    (h' : cur.next = (.error e, rest)) : compile source = .error (.lex e) := by
  simp only [compile, Cursor.compile, Window.prime, h, h']

/-- The run behind a program that is accepted. -/
theorem exists_run_of_compile {c : CSource} (h : compile source = .ok c) : ∃ w events s,
    Window.prime (.start source) = (.ok w, events) ∧ (w.run .start).1 = .ok s ∧ s.code = c ∧
      (Cursor.start source).compile.2 = events ++ (w.run .start).2 := by
  unfold compile Cursor.compile at h
  split at h
  · cases h
  · next w events hprime =>
    obtain ⟨s, hrun, hcode⟩ : ∃ s, (w.run .start).1 = .ok s ∧ s.code = c := by
      cases hresult : (w.run .start).1 with
      | error e => simp [hresult, Except.map] at h
      | ok s => exact ⟨s, rfl, by simpa [hresult, Except.map] using h⟩
    refine ⟨w, events, s, hprime, hrun, hcode, ?_⟩
    rw [Cursor.compile, hprime]

/-- What can be scanned is compiled as the list of its tokens. -/
theorem compile_of_tokenize (h : tokenize source = .ok ts) :
    compile source = ((Compilation.start.through ts).mapError .parse).map Compilation.code := by
  obtain ⟨w, events, hprime, hrun⟩ := Window.exists_prime (drain_of_tokenize h)
  simp only [compile, Cursor.compile, hprime, hrun]

/-- What cannot be scanned is not compiled. -/
theorem compile_ne_ok (h : tokenize source = .error e) (c : CSource) : compile source ≠ .ok c := by
  obtain ⟨ts, hdrain⟩ := drain_of_tokenize_error h
  rcases Cursor.next_of_drain_error hdrain with ⟨cur, hnext⟩ | ⟨t, cur, us, hnext, ht, hus⟩
  · simp [compile_of_next_error hnext]
  rcases Cursor.next_of_drain_error hus with ⟨rest, hnext'⟩ | ⟨ahead, rest, vs, hnext', ha, hvs⟩
  · simp [compile_of_ahead_error hnext hnext']
  rw [compile_of_next hnext hnext']
  have hrun := Window.run_ne_ok_of_drain (w := ⟨t, ahead, rest⟩) (s := .start) ht ha hvs
  cases hresult : (Window.run .start ⟨t, ahead, rest⟩).1 with
  | error e => simp [Except.map]
  | ok s => exact absurd hresult (hrun s)

end

end TeenyToC
