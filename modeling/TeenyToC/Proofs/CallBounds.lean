import TeenyToC.Proofs.LogRecords
import TeenyToC.Proofs.ScannerCalls

/-! How often the scanner is called. Each call but the last ones takes a character, so the tokens of
a text are there after two calls more than it has characters (`calls_of_drain`). A compilation calls
the scanner in the same way, at most once more, since each token it accepts costs one more call and
leaves less to read (`length_scans_run_le`). So no statement is begun twice at one token
(`after_statement`). -/

namespace TeenyToC

/-- The results of the calls, in their order. -/
def scans (events : List Event) : List (Except LexError Token) :=
  events.filterMap fun event => match event with
    | .scanned r => some r
    | _ => none

/-- Nothing is read behind such a result. -/
def EndsReading : Except LexError Token → Prop
  | .error _ => True
  | .ok t => t.kind = .eof

section Events
variable {events events' : List Event} {r : Except LexError Token}

theorem scans_nil : scans [] = [] := rfl

theorem scans_scanned : scans (.scanned r :: events) = r :: scans events := rfl

theorem scans_map_scanned (rs : List (Except LexError Token)) :
    scans (rs.map .scanned) = rs := by
  induction rs with
  | nil => rfl
  | cons r rs ih => rw [List.map_cons, scans_scanned, ih]

theorem scans_append : scans (events ++ events') = scans events ++ scans events' :=
  List.filterMap_append

/-- The event at the start of a statement is no call. -/
theorem scans_begun (s : Compilation) (t : Token) (begun : List Event)
    (h : begun = if s.begins t then [.statement t.kind t.line] else []) : scans begun = [] := by
  rw [h]
  split <;> rfl

end Events

namespace Cursor

/-- The tokens of a text are those of the calls up to the first one that ends the reading. -/
theorem calls_of_drain (cur : Cursor) : ∃ k ≤ cur.rest.length,
    (∀ i < k, ¬EndsReading (cur.call i)) ∧ EndsReading (cur.call k) ∧
      (cur.steps (k + 1)).mapM id =
        (match cur.drain with | (ts, none) => .ok ts | (_, some e) => .error e) := by
  fun_induction drain cur with
  | case1 cur e rest hnext =>
    have hcall : cur.call 0 = .error e := congrArg Prod.fst hnext
    refine ⟨0, Nat.zero_le _, fun i hi => absurd hi i.not_lt_zero, by rw [hcall]; trivial, ?_⟩
    rw [steps, hnext]
    rfl
  | case2 cur t rest hnext ht =>
    have hcall : cur.call 0 = .ok t := congrArg Prod.fst hnext
    refine ⟨0, Nat.zero_le _, fun i hi => absurd hi i.not_lt_zero, by rw [hcall]; exact ht, ?_⟩
    rw [steps, hnext]
    rfl
  | case3 cur t rest hnext ht _ ts e hrest ih =>
    rw [hrest] at ih
    obtain ⟨k, hk, hreads, hends, hresults⟩ := ih
    have hresult : cur.next.1 = .ok t := congrArg Prod.fst hnext
    have hlt := next_length_lt hresult ht
    -- Behind the first call the calls are those of the rest, counted one lower.
    have hcall (i : Nat) : cur.call (i + 1) = rest.call i := by
      rw [Nat.add_comm, call_add]
      exact congrArg (call · i) (congrArg Prod.snd hnext)
    rw [hnext] at hlt
    refine ⟨k + 1, Nat.lt_of_le_of_lt hk hlt, fun i hi => ?_, by rwa [hcall], ?_⟩
    · cases i with
      | zero =>
        have hfirst : cur.call 0 = .ok t := hresult
        rw [hfirst]
        exact ht
      | succ i =>
        rw [hcall]
        exact hreads i (Nat.lt_of_succ_lt_succ hi)
    · rw [steps, hnext, List.mapM_cons, hresults]
      cases e <;> rfl

end Cursor

namespace Window
variable {s s' : Compilation} {w : Window} {cur : Cursor} {events : List Event}

/-- A run calls the scanner again and again from where it stands. -/
theorem scans_run (s : Compilation) (w : Window) :
    scans (w.run s).2 = w.cursor.steps (scans (w.run s).2).length := by
  fun_induction run s w with
  | case1 => rfl
  | case2 => rfl
  | case3 s w hc begun =>
    rw [scans_begun s w.current begun rfl]
    rfl
  | case4 s w hc begun _ _ e rest =>
    rename_i hnext
    rw [scans_append, scans_begun s w.current begun rfl, scans_scanned, scans_nil, List.nil_append,
      List.length_singleton, Cursor.steps, hnext]
    rfl
  | case5 s w hc begun m hstep t rest hnext _ result events hrun =>
    rename_i ih
    rw [hrun] at ih
    rw [scans_append, scans_begun s w.current begun rfl, scans_scanned, List.nil_append,
      List.length_cons, Cursor.steps, hnext]
    exact congrArg _ ih

/-- Each call brings the run nearer to the end of the text. -/
theorem length_scans_run_le (s : Compilation) (w : Window) :
    (scans (w.run s).2).length ≤ w.size := by
  fun_induction run s w with
  | case1 => exact Nat.zero_le _
  | case2 => exact Nat.zero_le _
  | case3 s w hc begun =>
    rw [scans_begun s w.current begun rfl]
    exact Nat.zero_le _
  | case4 s w hc begun =>
    -- Nothing has been read, but the token at hand is not the end and still weighs one.
    rw [scans_append, scans_begun s w.current begun rfl, scans_scanned, scans_nil, List.nil_append,
      List.length_singleton, size, weight, if_neg hc]
    omega
  | case5 s w hc begun m hstep t rest hnext hlt result events hrun =>
    rename_i ih
    rw [hrun] at ih
    rw [scans_append, scans_begun s w.current begun rfl, scans_scanned, List.nil_append,
      List.length_cons]
    exact Nat.lt_of_le_of_lt ih hlt

/-- An accepted run takes the tokens before the end of the text, with one call for each. -/
theorem length_scans_of_run (h : (w.run s).1 = .ok s') :
    (scans (w.run s).2).length = w.pending.length := by
  fun_induction run s w with
  | case1 => cases h
  | case2 s w hc =>
    rw [pending_of_eof hc]
    rfl
  | case3 => cases h
  | case4 => cases h
  | case5 s w hc begun m hstep t rest hnext _ result events hrun =>
    rename_i ih
    rw [hrun] at ih
    rw [scans_append, scans_begun s w.current begun rfl, scans_scanned, List.nil_append,
      pending_of_next hc hnext, List.length_cons, List.length_cons]
    exact congrArg (· + 1) (ih h)

/-- A statement that cannot be begun is what the run fails for. -/
theorem error_of_begins {t : Token} {e : ParseError} (hbegins : s.begins t)
    (h : s.step t = .error e) : e = ⟨t.line, .invalidStatement t.text t.kind⟩ := by
  simp only [Compilation.begins, Bool.and_eq_true, decide_eq_true_eq, Bool.not_eq_true'] at hbegins
  obtain ⟨⟨hphase, hnewline⟩, hcloses⟩ := hbegins
  rw [Compilation.step_statement hphase, Compilation.begin, hcloses, if_neg Bool.false_ne_true] at h
  split at h <;> cases h
  rfl

/-- The start of a statement is the one of the token at hand, or a later one. -/
theorem statement_of_begun {t : Token} {kind : Kind} {line : Nat} {after : List Event}
    (begun : List Event) (hbegun : begun = if s.begins t then [.statement t.kind t.line] else [])
    (h : .statement kind line :: after <:+ begun ++ events) :
    (s.begins t ∧ kind = t.kind ∧ line = t.line ∧ after = events) ∨
      .statement kind line :: after <:+ events := by
  subst hbegun
  split at h
  · next hbegins =>
    rcases List.suffix_cons_iff.mp h with heq | hlater
    · cases heq
      exact .inl ⟨hbegins, rfl, rfl, rfl⟩
    · exact .inr hlater
  · exact .inr h

/-- The results of calls are no starts of statements. -/
theorem statement_behind_scanned (rs : List (Except LexError Token)) {kind : Kind} {line : Nat}
    {after : List Event} (h : .statement kind line :: after <:+ rs.map .scanned ++ events) :
    .statement kind line :: after <:+ events := by
  induction rs with
  | nil => exact h
  | cons r rs ih => exact ih ((List.suffix_cons_iff.mp h).resolve_left nofun)

/-- What comes behind the start of a statement: its first token is refused, or else it is taken and
the scanner is called. -/
theorem after_statement {kind : Kind} {line : Nat} {after : List Event}
    (h : .statement kind line :: after <:+ (w.run s).2) : kind ≠ .eof ∧
    ((after = [] ∧ ∃ text, (w.run s).1 = .error (.parse ⟨line, .invalidStatement text kind⟩)) ∨
    (∃ e, after = [.scanned (.error e)] ∧ (w.run s).1 = .error (.lex e)) ∨
    ∃ t rest, after = .scanned (.ok t) :: rest) := by
  fun_induction run s w with
  | case1 => cases List.suffix_nil.mp h
  | case2 =>
    rcases List.suffix_cons_iff.mp h with heq | hlater
    · cases heq
    · cases List.suffix_nil.mp hlater
  | case3 s w hc begun e hstep =>
    rw [← List.append_nil begun] at h
    rcases statement_of_begun begun rfl h with ⟨hbegins, hkind, hline, hafter⟩ | hlater
    · refine ⟨hkind ▸ hc, .inl ⟨hafter, w.current.text, ?_⟩⟩
      rw [error_of_begins hbegins hstep, hkind, hline]
    · cases List.suffix_nil.mp hlater
  | case4 s w hc begun _ _ e =>
    rcases statement_of_begun begun rfl h with ⟨-, hkind, -, hafter⟩ | hlater
    · exact ⟨hkind ▸ hc, .inr (.inl ⟨e, hafter, rfl⟩)⟩
    · cases List.suffix_nil.mp (statement_behind_scanned [_] hlater)
  | case5 s w hc begun _ _ t rest _ _ result events hrun =>
    rename_i ih
    rw [hrun] at ih
    rcases statement_of_begun begun rfl h with ⟨-, hkind, -, hafter⟩ | hlater
    · exact ⟨hkind ▸ hc, .inr (.inr ⟨t, events, hafter⟩)⟩
    · exact ih (statement_behind_scanned [_] hlater)

/-- A window is filled with two calls, and what they take is in it or read. -/
theorem calls_of_prime (h : prime cur = (.ok w, events)) :
    events = (cur.steps 2).map .scanned ∧ w.cursor = cur.after 2 ∧ w.size ≤ cur.rest.length := by
  unfold prime at h
  split at h
  · cases h
  · next t mid hnext =>
    split at h
    · cases h
    · next ahead rest hnext' =>
      cases h
      refine ⟨?_, ?_, ?_⟩
      · rw [Cursor.steps, Cursor.steps, hnext, hnext']
        rfl
      · rw [Cursor.after_succ, Cursor.after_succ]
        change rest = cur.next.2.next.2
        rw [hnext, hnext']
      · have hcurrent := next_size_le hnext
        have hahead := next_size_le hnext'
        change rest.rest.length + weight t + weight ahead ≤ cur.rest.length
        omega

/-- A window that cannot be filled takes no third call. -/
theorem calls_of_prime_error {e : LexError} (h : prime cur = (.error e, events)) :
    ∃ k ≤ 2, events = (cur.steps k).map .scanned := by
  unfold prime at h
  split at h
  · next e rest hnext =>
    cases h
    refine ⟨1, by decide, ?_⟩
    rw [Cursor.steps, hnext]
    rfl
  · next t mid hnext =>
    split at h
    · next e rest hnext' =>
      cases h
      refine ⟨2, le_rfl, ?_⟩
      rw [Cursor.steps, Cursor.steps, hnext, hnext']
      rfl
    · cases h

end Window

/-- A compilation calls the scanner again and again, at most twice more often than there are
characters left. -/
theorem Cursor.scans_compile (cur : Cursor) :
    scans cur.compile.2 = cur.steps (scans cur.compile.2).length ∧
      (scans cur.compile.2).length ≤ cur.rest.length + 2 := by
  unfold compile
  split
  · next e events hprime =>
    obtain ⟨k, hk, rfl⟩ := Window.calls_of_prime_error hprime
    rw [scans_map_scanned, length_steps]
    exact ⟨rfl, by omega⟩
  · next w events hprime =>
    obtain ⟨rfl, hcursor, hsize⟩ := Window.calls_of_prime hprime
    have hle := Window.length_scans_run_le .start w
    dsimp only
    rw [scans_append, scans_map_scanned, List.length_append, length_steps, steps_add, ← hcursor,
      ← Window.scans_run]
    exact ⟨rfl, by omega⟩

section
variable {source : String}

/-- An accepted text is read with one call more than it has tokens. -/
theorem calls_of_compile {c : CSource} (hc : compile source = .ok c) :
    ∃ ts, tokenize source = .ok ts ∧
      (scans (Cursor.start source).compile.2).length = ts.length + 1 := by
  obtain ⟨all, -, -, hall, -⟩ := exists_parses hc
  obtain ⟨ts, eof, rfl, heof, hvalid⟩ := tokenize_eq_append hall
  refine ⟨_, hall, ?_⟩
  obtain ⟨w, events, s, hprime, hrun, -, hevents⟩ := exists_run_of_compile hc
  obtain ⟨-, hpending, -, -⟩ := Window.records_of_prime hprime
  obtain ⟨rfl, -, -⟩ := Window.calls_of_prime hprime
  rw [hevents, scans_append, scans_map_scanned, List.length_append, Cursor.length_steps,
    Window.length_scans_of_run hrun, hpending, upcoming_of_tokenize hall hvalid heof,
    List.length_append, List.length_singleton]
  omega

/-- What comes behind the start of a statement in the events of a compilation. -/
theorem compile_after_statement {kind : Kind} {line : Nat} {after : List Event}
    (h : .statement kind line :: after <:+ (Cursor.start source).compile.2) : kind ≠ .eof ∧
    ((after = [] ∧ ∃ text, compile source = .error (.parse ⟨line, .invalidStatement text kind⟩)) ∨
    (∃ e, after = [.scanned (.error e)] ∧ compile source = .error (.lex e)) ∨
    ∃ t rest, after = .scanned (.ok t) :: rest) := by
  unfold compile
  unfold Cursor.compile at h ⊢
  split at h
  · next e events hprime =>
    obtain ⟨k, -, rfl⟩ := Window.calls_of_prime_error hprime
    rw [← List.append_nil (List.map _ _)] at h
    cases List.suffix_nil.mp (Window.statement_behind_scanned _ h)
  · next w events hprime =>
    obtain ⟨rfl, -, -⟩ := Window.calls_of_prime hprime
    dsimp only
    obtain ⟨hkind, hafter⟩ := Window.after_statement (Window.statement_behind_scanned _ h)
    refine ⟨hkind, ?_⟩
    rcases hafter with ⟨hnil, text, hrun⟩ | ⟨e, hfault, hrun⟩ | htaken
    · exact .inl ⟨hnil, text, by rw [hrun]; rfl⟩
    · exact .inr (.inl ⟨e, hfault, by rw [hrun]; rfl⟩)
    · exact .inr (.inr htaken)

end

/-- The tokens of a text are those of the calls up to the first that ends the reading, and there are
at most two calls more than characters. A compilation calls the scanner at most three times more,
and if it accepts the text, once more than there are tokens. Where a statement begins, its first
token is taken with another call, or the compilation fails right there, so no loop over statements
comes round without a token less. -/
theorem compile_calls (source : String) :
    (∃ k, k + 1 ≤ source.length + 2 ∧ (∀ i < k, ¬EndsReading ((Cursor.start source).call i)) ∧
      EndsReading ((Cursor.start source).call k) ∧
        tokenize source = ((Cursor.start source).steps (k + 1)).mapM id) ∧
    scans (Cursor.start source).compile.2 =
      (Cursor.start source).steps (scans (Cursor.start source).compile.2).length ∧
    (scans (Cursor.start source).compile.2).length ≤ source.length + 3 ∧
    (∀ c, compile source = .ok c → ∃ ts, tokenize source = .ok ts ∧
      (scans (Cursor.start source).compile.2).length = ts.length + 1) ∧
    ∀ kind line after, .statement kind line :: after <:+ (Cursor.start source).compile.2 →
      kind ≠ .eof ∧
      ((after = [] ∧ ∃ text, compile source = .error (.parse ⟨line, .invalidStatement text kind⟩)) ∨
      (∃ e, after = [.scanned (.error e)] ∧ compile source = .error (.lex e)) ∨
      ∃ t rest, after = .scanned (.ok t) :: rest) := by
  have hlength : (Cursor.start source).rest.length = source.length + 1 := by
    rw [Cursor.start, List.length_append, String.length_toList]
    rfl
  obtain ⟨k, hk, hreads, hends, hresults⟩ := (Cursor.start source).calls_of_drain
  obtain ⟨hscans, hle⟩ := (Cursor.start source).scans_compile
  rw [hlength] at hk hle
  exact ⟨⟨k, by omega, hreads, hends, hresults.symm⟩, hscans, hle, fun _ => calls_of_compile,
    fun _ _ _ => compile_after_statement⟩

/-- An accepted text, and one whose first token starts no statement. -/
theorem compile_calls_name :
    compile "PRINT 1" = .ok ⟨"#include <stdio.h>\nint main(void)\x7b\n",
      "printf(\"%.2f\\n\", (float)(1));\nreturn 0;\n\x7d\n"⟩ ∧
    (∃ ts, tokenize "PRINT 1" = .ok ts ∧
      (scans (Cursor.start "PRINT 1").compile.2).length = ts.length + 1) ∧
    [.statement .ident 1] <:+ (Cursor.start "x").compile.2 ∧ Kind.ident ≠ .eof ∧
    (([] = ([] : List Event) ∧
      ∃ text, compile "x" = .error (.parse ⟨1, .invalidStatement text .ident⟩)) ∨
    (∃ e, [] = [Event.scanned (.error e)] ∧ compile "x" = .error (.lex e)) ∨
    ∃ t rest, [] = Event.scanned (.ok t) :: rest) := by
  have haccepted : compile "PRINT 1" = .ok ⟨"#include <stdio.h>\nint main(void)\x7b\n",
      "printf(\"%.2f\\n\", (float)(1));\nreturn 0;\n\x7d\n"⟩ := by cbv
  have hevents : (Cursor.start "x").compile.2 =
      [.scanned (.ok ⟨.ident, "x", 1⟩), .scanned (.ok ⟨.newline, "\n", 1⟩)] ++
        [.statement .ident 1] := by cbv
  have hbegun : [.statement .ident 1] <:+ (Cursor.start "x").compile.2 := ⟨_, hevents.symm⟩
  exact ⟨haccepted, (compile_calls _).2.2.2.1 _ haccepted, hbegun,
    (compile_calls _).2.2.2.2 _ _ _ hbegun⟩

end TeenyToC
