import TeenyToC.Proofs.LineBoundaries
import TeenyToC.Proofs.Lookahead

/-! Carriage returns at the ends of lines. A carriage return is a blank between two lexemes and in
none of them, just as a newline is in no lexeme but its own, so one more of them before a newline
changes neither where a lexeme ends nor what it is (`scan_returned`). It can only come to stand
where the newline was wrong, and there it is wrong as well. So a text is scanned and compiled in the
same way with either ending of its lines (`line_endings_agree`). -/

namespace TeenyToC

/-- Carriage returns have been put before some newlines of the first text. -/
inductive Returned : List Char → List Char → Prop where
  | nil : Returned [] []
  | cons (c : Char) {cs ds : List Char} : Returned cs ds → Returned (c :: cs) (c :: ds)
  | newline {cs ds : List Char} : Returned cs ds → Returned ('\n' :: cs) ('\r' :: '\n' :: ds)

/-- The text with a carriage return before every newline. -/
def crlf (source : String) : String :=
  String.ofList (source.toList.flatMap fun c => if c = '\n' then ['\r', '\n'] else [c])

example : crlf "LET x = 1\n\r\nPRINT x" = "LET x = 1\r\n\r\r\nPRINT x" := by decide +kernel

section Texts
variable {P : Char → Bool} {cs ds as bs : List Char}

theorem Returned.refl (cs : List Char) : Returned cs cs := by
  induction cs with
  | nil => exact .nil
  | cons c cs ih => exact .cons c ih

theorem Returned.append (h : Returned cs ds) (h' : Returned as bs) :
    Returned (cs ++ as) (ds ++ bs) := by
  induction h with
  | nil => exact h'
  | cons c _ ih => exact .cons c ih
  | newline _ ih => exact .newline ih

theorem returned_crlf (source : String) : Returned source.toList (crlf source).toList := by
  rw [crlf, String.toList_ofList]
  induction source.toList with
  | nil => exact .nil
  | cons c cs ih =>
    by_cases hc : c = '\n'
    · subst hc
      exact .newline ih
    · rw [List.flatMap_cons, if_neg hc]
      exact .cons c ih

/-- A class of characters with neither of the two spans the same of both texts. -/
theorem Returned.takeWhile (h : Returned cs ds) (hn : P '\n' = false) (hr : P '\r' = false) :
    cs.takeWhile P = ds.takeWhile P := by
  induction h with
  | nil => rfl
  | cons c _ ih => rw [List.takeWhile_cons, List.takeWhile_cons, ih]
  | newline => simp [hn, hr]

theorem Returned.dropWhile (h : Returned cs ds) (hn : P '\n' = false) :
    Returned (cs.dropWhile P) (ds.dropWhile P) := by
  induction h with
  | nil => exact .nil
  | cons c h ih =>
    by_cases hc : P c
    · simpa only [List.dropWhile_cons_of_pos hc] using ih
    · simpa only [List.dropWhile_cons_of_neg hc] using h.cons c
  | newline h =>
    rw [List.dropWhile_cons_of_neg (by simp [hn])]
    by_cases hr : P '\r'
    · simpa [hr, hn] using h.cons '\n'
    · simpa [hr] using h.newline

end Texts

section Scanning
variable {cs ds r r' : List Char}

theorem skipTrivia_returned (h : Returned cs ds) : Returned (skipTrivia cs) (skipTrivia ds) := by
  have hblanks := h.dropWhile (P := isBlank) (by decide)
  unfold skipTrivia
  generalize cs.dropWhile isBlank = as at hblanks
  generalize ds.dropWhile isBlank = bs at hblanks
  cases hblanks with
  | nil => exact .nil
  | cons c h =>
    by_cases hc : c = '#'
    · subst hc
      exact h.dropWhile (by decide)
    · simpa [hc] using h.cons c
  | newline h => exact h.newline

/-- Behind trivia both texts go on with the same character. -/
theorem skipTrivia_returned_cases (h : Returned cs ds) :
    skipTrivia cs = [] ∧ skipTrivia ds = [] ∨
      ∃ c r r', skipTrivia cs = c :: r ∧ skipTrivia ds = c :: r' ∧ Returned r r' := by
  have hrest := skipTrivia_returned h
  have hhead := head?_skipTrivia ds
  generalize skipTrivia cs = as at hrest
  generalize skipTrivia ds = bs at hrest hhead
  cases hrest with
  | nil => exact .inl ⟨rfl, rfl⟩
  | cons c h => exact .inr ⟨c, _, _, rfl, rfl, h⟩
  | newline => cases (hhead '\r' rfl).1

/-- Both scans read the same lexeme, and are as far as each other then, or neither reads one. -/
inductive SameScan : Scan → Scan → Prop where
  | ok (x : Lexeme) {r r' : List Char} : Returned r r' → SameScan (.ok x, r) (.ok x, r')
  | error (f f' : LexFault) (r r' : List Char) : SameScan (.error f, r) (.error f', r')

theorem scanString_returned (h : Returned cs ds) : SameScan (scanString cs) (scanString ds) := by
  have hspan : cs.takeWhile isStringPart = ds.takeWhile isStringPart :=
    h.takeWhile (by decide) (by decide)
  have hrest := h.dropWhile (P := isStringPart) (by decide)
  generalize hcs : cs.dropWhile isStringPart = as at hrest
  generalize hds : ds.dropWhile isStringPart = bs at hrest
  cases hrest with
  | nil =>
    have hcs : cs.dropWhile (fun c => c ≠ '"' && !isIllegal c) = [] := hcs
    have hds : ds.dropWhile (fun c => c ≠ '"' && !isIllegal c) = [] := hds
    simp only [scanString, hcs, hds]
    exact .error _ _ _ _
  | cons c h =>
    rw [scanString_of_dropWhile hcs, scanString_of_dropWhile hds, hspan]
    split
    · exact .ok _ h
    · exact .error _ _ _ _
  | newline =>
    rw [scanString_of_dropWhile hcs, scanString_of_dropWhile hds]
    exact .error _ _ _ _

theorem scanNumber_returned (h : Returned cs ds) : SameScan (scanNumber cs) (scanNumber ds) := by
  have hrest := h.dropWhile (P := Char.isDigit) (by decide)
  simp only [scanNumber, h.takeWhile (P := Char.isDigit) (by decide) (by decide)]
  generalize cs.dropWhile Char.isDigit = as at hrest
  generalize ds.dropWhile Char.isDigit = bs at hrest
  cases hrest with
  | nil => exact .ok _ .nil
  | cons c h =>
    by_cases hc : c = '.'
    · subst hc
      simp only [h.takeWhile (P := Char.isDigit) (by decide) (by decide)]
      split
      · exact .error _ _ _ _
      · exact .ok _ (h.dropWhile (by decide))
    · simpa [hc] using SameScan.ok _ (h.cons c)
  | newline h => exact .ok _ h.newline

theorem scanWord_returned (h : Returned cs ds) : SameScan (scanWord cs) (scanWord ds) := by
  simp only [scanWord, h.takeWhile (P := Char.isAlphanum) (by decide) (by decide)]
  exact .ok _ (h.dropWhile (by decide))

theorem scanSymbol_returned (c : Char) (h : Returned r r') :
    SameScan (scanSymbol c r) (scanSymbol c r') := by
  -- Where no pair is begun, or no `=` follows, only the character itself is looked at.
  have hsingle (hr : Kind.ofCharEquals? c ≠ none → r.head? ≠ some '=')
      (hr' : Kind.ofCharEquals? c ≠ none → r'.head? ≠ some '=') :
      SameScan (scanSymbol c r) (scanSymbol c r') := by
    cases hk : Kind.ofChar? c with
    | some kind =>
      rw [scanSymbol_of_single hr hk, scanSymbol_of_single hr' hk]
      exact .ok _ h
    | none =>
      rw [scanSymbol_of_none hr hk, scanSymbol_of_none hr' hk]
      exact .error _ _ _ _
  cases h with
  | nil => exact hsingle nofun nofun
  | newline => exact hsingle (by simp) (by simp)
  | @cons d s s' h =>
    by_cases hpair : Kind.ofCharEquals? c ≠ none ∧ d = '='
    · obtain ⟨hk, rfl⟩ := hpair
      obtain ⟨kind, hk⟩ := Option.ne_none_iff_exists'.mp hk
      rw [scanSymbol_of_pair hk, scanSymbol_of_pair hk]
      exact .ok _ h
    · exact hsingle (by simpa using hpair) (by simpa using hpair)

theorem scan_returned (c : Char) (h : Returned r r') :
    SameScan (scan (c :: r)) (scan (c :: r')) := by
  unfold scan
  dsimp only
  split_ifs
  · exact scanString_returned h
  · exact scanNumber_returned (h.cons c)
  · exact scanWord_returned (h.cons c)
  · exact scanSymbol_returned c h

end Scanning

namespace Cursor
variable {ds : List Char}

theorem next_returned {cur : Cursor} (h : Returned cur.rest ds) :
    (∃ t rest r, cur.next = (.ok t, rest) ∧ next ⟨ds, cur.line⟩ = (.ok t, ⟨r, rest.line⟩) ∧
      Returned rest.rest r) ∨
    ∃ e e' rest rest', cur.next = (.error e, rest) ∧ next ⟨ds, cur.line⟩ = (.error e', rest') ∧
      e.line = e'.line := by
  unfold next
  rcases skipTrivia_returned_cases h with ⟨hcs, hds⟩ | ⟨c, r, r', hcs, hds, hr⟩
  · rw [hcs, hds]
    exact .inl ⟨_, _, _, rfl, rfl, .nil⟩
  · have hscan := scan_returned c hr
    rw [hcs, hds]
    generalize scan (c :: r) = x at hscan
    generalize scan (c :: r') = y at hscan
    cases hscan with
    | ok x hrest => exact .inl ⟨_, _, _, rfl, rfl, hrest⟩
    | error => exact .inr ⟨_, _, _, _, rfl, rfl, rfl⟩

/-- The tokens are the same, and if a fault ends them it does so on the same line. -/
theorem drain_returned {cur : Cursor} (h : Returned cur.rest ds) :
    ∃ ts, cur.drain = (ts, none) ∧ drain ⟨ds, cur.line⟩ = (ts, none) ∨
      ∃ e e', cur.drain = (ts, some e) ∧ drain ⟨ds, cur.line⟩ = (ts, some e') ∧
        e.line = e'.line := by
  -- The induction is on what is left to read of the text without the carriage returns.
  induction hlen : cur.rest.length using Nat.strong_induction_on generalizing cur ds with
  | _ n ih =>
    rcases next_returned h with ⟨t, rest, r, hcur, hds, hrest⟩ |
      ⟨e, e', rest, rest', hcur, hds, hline⟩
    · by_cases ht : t.kind = .eof
      · exact ⟨[t], .inl ⟨drain_of_eof hcur ht, drain_of_eof hds ht⟩⟩
      · have hlt := next_length_lt (congrArg Prod.fst hcur) ht
        rw [hcur, hlen] at hlt
        rw [drain_of_ne_eof hcur ht, drain_of_ne_eof hds ht]
        obtain ⟨ts, ⟨hts, hts'⟩ | ⟨e, e', hts, hts', hline⟩⟩ := ih _ hlt hrest rfl
        · exact ⟨t :: ts, .inl (by rw [hts, hts']; exact ⟨rfl, rfl⟩)⟩
        · exact ⟨t :: ts, .inr ⟨e, e', by rw [hts], by rw [hts'], hline⟩⟩
    · exact ⟨[], .inr ⟨e, e', drain_of_error hcur, drain_of_error hds, hline⟩⟩

theorem start_returned {source source' : String} (h : Returned source.toList source'.toList) :
    ∃ ts, (start source).drain = (ts, none) ∧ (start source').drain = (ts, none) ∨
      ∃ e e', (start source).drain = (ts, some e) ∧ (start source').drain = (ts, some e') ∧
        e.line = e'.line := by
  have hrest : Returned (start source).rest (start source').rest := h.append (.refl ['\n'])
  exact drain_returned hrest

end Cursor

section
variable {source source' : String}

theorem tokenize_returned (h : Returned source.toList source'.toList) :
    (tokenize source).mapError LexError.line = (tokenize source').mapError LexError.line := by
  obtain ⟨ts, ⟨hts, hts'⟩ | ⟨e, e', hts, hts', hline⟩⟩ := Cursor.start_returned h
  · rw [tokenize, tokenize, hts, hts']
  · rw [tokenize, tokenize, hts, hts']
    exact congrArg Except.error hline

theorem Compilation.line_firstError (s : Compilation) (ts : List Token) {e e' : LexError}
    (hline : e.line = e'.line) : (s.firstError ts e).line = (s.firstError ts e').line := by
  unfold firstError
  split
  · split
    · rfl
    · exact hline
  · exact hline

theorem compile_returned (h : Returned source.toList source'.toList) :
    (compile source).mapError CompileError.line = (compile source').mapError CompileError.line := by
  obtain ⟨ts, ⟨hts, hts'⟩ | ⟨e, e', hts, hts', hline⟩⟩ := Cursor.start_returned h
  · have htokens : tokenize source = .ok ts := by rw [tokenize, hts]
    have htokens' : tokenize source' = .ok ts := by rw [tokenize, hts']
    rw [compile_of_tokenize htokens, compile_of_tokenize htokens']
  · rw [compile_of_drain_error hts, compile_of_drain_error hts']
    exact congrArg Except.error (Compilation.line_firstError _ ts hline)

end

theorem eq_ok_iff_of_mapError {ε β α : Type} {f : ε → β} {x y : Except ε α}
    (h : x.mapError f = y.mapError f) (a : α) : x = .ok a ↔ y = .ok a := by
  cases x <;> cases y <;> simp_all [Except.mapError]

theorem exists_error_of_mapError {ε β α : Type} {f : ε → β} {x y : Except ε α} {e : ε}
    (h : x.mapError f = y.mapError f) (hx : x = .error e) : ∃ e', y = .error e' ∧ f e' = f e := by
  cases y <;> simp_all [Except.mapError]

/-- The ending of the lines makes no difference to the tokens, on which lines they are, and to the C
text, and what is refused with one ending is refused on the same line with the other. -/
theorem line_endings_agree (source : String) :
    (∀ ts, tokenize source = .ok ts ↔ tokenize (crlf source) = .ok ts) ∧
      (∀ c, compile source = .ok c ↔ compile (crlf source) = .ok c) ∧
        ∀ e, compile source = .error e →
          ∃ e', compile (crlf source) = .error e' ∧ e'.line = e.line := by
  have htokens := tokenize_returned (returned_crlf source)
  have hcompile := compile_returned (returned_crlf source)
  exact ⟨eq_ok_iff_of_mapError htokens, eq_ok_iff_of_mapError hcompile,
    fun e => exists_error_of_mapError hcompile⟩

end TeenyToC
