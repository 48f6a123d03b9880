import TeenyToC.Proofs.MaximalMunch

/-! A newline is a boundary. Nothing that is scanned reaches over one, so a text with a newline at
its end is scanned in the same way whatever is put behind it (`Cursor.drain_append`), faults
included (`Cursor.drain_append_of_error`), and what is put behind it is scanned as it is alone, on
later lines (`Cursor.drain_shift`). So of two texts with a newline between them the second is looked
at only if the first has no fault (`tokenize_join`). -/

namespace TeenyToC

section Spans
variable {P : Char → Bool} {cs : List Char} {c : Char}

/-- A character outside a class ends its span, whatever is put behind the text. -/
theorem takeWhile_append_of_mem (hc : c ∈ cs) (hP : P c = false) (ds : List Char) :
    (cs ++ ds).takeWhile P = cs.takeWhile P := by
  obtain ⟨xs, ys, rfl⟩ := List.append_of_mem hc
  rw [List.append_assoc, List.cons_append, List.takeWhile_append, List.takeWhile_append,
    List.takeWhile_cons_of_neg (by simp [hP]), List.takeWhile_cons_of_neg (by simp [hP])]

theorem mem_dropWhile (hc : c ∈ cs) (hP : P c = false) : c ∈ cs.dropWhile P := by
  rw [← List.takeWhile_append_dropWhile (p := P) (l := cs), List.mem_append] at hc
  rcases hc with hc | hc
  · simp [List.mem_takeWhile_imp hc] at hP
  · exact hc

theorem dropWhile_append_of_mem (hc : c ∈ cs) (hP : P c = false) (ds : List Char) :
    (cs ++ ds).dropWhile P = cs.dropWhile P ++ ds := by
  have hne : ¬(cs.dropWhile P).isEmpty := by
    rw [List.isEmpty_iff]
    exact List.ne_nil_of_mem (mem_dropWhile hc hP)
  rw [List.dropWhile_append, if_neg hne]

end Spans

/-! A newline is scanned by itself or stops what is scanned before it. -/

section Scanning
variable {c : Char} {cs : List Char}

theorem newline_mem_skipTrivia (h : '\n' ∈ cs) : '\n' ∈ skipTrivia cs := by
  have hblanks : '\n' ∈ cs.dropWhile isBlank := mem_dropWhile h (by decide)
  unfold skipTrivia
  split
  · next r hr =>
    rw [hr] at hblanks
    exact mem_dropWhile (List.mem_of_ne_of_mem (by decide) hblanks) (by decide)
  · exact hblanks

theorem skipTrivia_append (h : '\n' ∈ cs) (ds : List Char) :
    skipTrivia (cs ++ ds) = skipTrivia cs ++ ds := by
  have hblanks : '\n' ∈ cs.dropWhile isBlank := mem_dropWhile h (by decide)
  unfold skipTrivia
  rw [dropWhile_append_of_mem h (by decide)]
  cases hr : cs.dropWhile isBlank with
  | nil =>
    rw [hr] at hblanks
    cases hblanks
  | cons c r =>
    rw [hr] at hblanks
    by_cases hc : c = '#'
    · subst hc
      exact dropWhile_append_of_mem (List.mem_of_ne_of_mem (by decide) hblanks) (by decide) ds
    · simp [hc]

/-- What stands behind the characters of a string decides whether it is one. -/
theorem scanString_of_dropWhile {r : List Char} (h : cs.dropWhile isStringPart = c :: r) :
    scanString cs = if c = '"' then (.ok ⟨.string, cs.takeWhile isStringPart⟩, r)
      else (.error (.illegalStringChar c), c :: r) := by
  have h : cs.dropWhile (fun c => c ≠ '"' && !isIllegal c) = c :: r := h
  simp only [scanString, h]
  rfl

theorem scanString_append (h : '\n' ∈ cs) (ds : List Char) :
    scanString (cs ++ ds) = ((scanString cs).1, (scanString cs).2 ++ ds) := by
  have hpart : isStringPart '\n' = false := by decide
  have hdrop := dropWhile_append_of_mem h hpart ds
  obtain ⟨c, r, hr⟩ := List.exists_cons_of_ne_nil (List.ne_nil_of_mem (mem_dropWhile h hpart))
  rw [hr, List.cons_append] at hdrop
  rw [scanString_of_dropWhile hr, scanString_of_dropWhile hdrop, takeWhile_append_of_mem h hpart]
  split <;> rfl

theorem scanNumber_append (h : '\n' ∈ cs) (ds : List Char) :
    scanNumber (cs ++ ds) = ((scanNumber cs).1, (scanNumber cs).2 ++ ds) := by
  have hdigit : Char.isDigit '\n' = false := by decide
  have hmem := mem_dropWhile h hdigit
  obtain ⟨c, r, hr⟩ := List.exists_cons_of_ne_nil (List.ne_nil_of_mem hmem)
  rw [hr] at hmem
  simp only [scanNumber, takeWhile_append_of_mem h hdigit, dropWhile_append_of_mem h hdigit, hr,
    List.cons_append]
  by_cases hc : c = '.'
  · subst hc
    have hfraction : '\n' ∈ r := List.mem_of_ne_of_mem (by decide) hmem
    simp only [takeWhile_append_of_mem hfraction hdigit, dropWhile_append_of_mem hfraction hdigit]
    split <;> rfl
  · simp [hc]

theorem scanWord_append (h : '\n' ∈ cs) (ds : List Char) :
    scanWord (cs ++ ds) = ((scanWord cs).1, (scanWord cs).2 ++ ds) := by
  have halnum : Char.isAlphanum '\n' = false := by decide
  simp only [scanWord, takeWhile_append_of_mem h halnum, dropWhile_append_of_mem h halnum]

theorem scanSymbol_of_pair {kind : Kind} {r : List Char} (hk : Kind.ofCharEquals? c = some kind) :
    scanSymbol c ('=' :: r) = (.ok ⟨kind, [c, '=']⟩, r) := by
  simp only [scanSymbol, hk]

/-- Where no pair stands, the first character is a symbol by itself or wrong. -/
theorem scanSymbol_of_single {kind : Kind} (h : Kind.ofCharEquals? c ≠ none → cs.head? ≠ some '=')
    (hk : Kind.ofChar? c = some kind) : scanSymbol c cs = (.ok ⟨kind, [c]⟩, cs) := by
  unfold scanSymbol
  split
  · next hk => exact absurd rfl (h (by simp [hk]))
  · rw [hk]

theorem scanSymbol_of_none (h : Kind.ofCharEquals? c ≠ none → cs.head? ≠ some '=')
    (hk : Kind.ofChar? c = none) : scanSymbol c cs =
      (.error (if c = '!' then .incompleteNotEqual (cs.headD '\n') else .unknownChar c),
        c :: cs) := by
  unfold scanSymbol
  split
  · next hk => exact absurd rfl (h (by simp [hk]))
  · rw [hk]
    dsimp only
    split <;> rfl

theorem scanSymbol_append (h : '\n' ∈ c :: cs) (ds : List Char) :
    scanSymbol c (cs ++ ds) = ((scanSymbol c cs).1, (scanSymbol c cs).2 ++ ds) := by
  cases cs with
  | nil =>
    obtain rfl : '\n' = c := by simpa using h
    rfl
  | cons d r =>
    rw [List.cons_append]
    by_cases hpair : Kind.ofCharEquals? c ≠ none ∧ d = '='
    · obtain ⟨hk, rfl⟩ := hpair
      obtain ⟨kind, hk⟩ := Option.ne_none_iff_exists'.mp hk
      rw [scanSymbol_of_pair hk, scanSymbol_of_pair hk]
    · have hne (s : List Char) : Kind.ofCharEquals? c ≠ none → (d :: s).head? ≠ some '=' := by
        simpa using hpair
      cases hk : Kind.ofChar? c with
      | some kind =>
        rw [scanSymbol_of_single (hne _) hk, scanSymbol_of_single (hne _) hk, List.cons_append]
      | none =>
        rw [scanSymbol_of_none (hne _) hk, scanSymbol_of_none (hne _) hk]
        rfl

theorem scan_append (h : '\n' ∈ cs) (ds : List Char) :
    scan (cs ++ ds) = ((scan cs).1, (scan cs).2 ++ ds) := by
  cases cs with
  | nil => cases h
  | cons c r =>
    have hrest (hc : '\n' ≠ c) : '\n' ∈ r := List.mem_of_ne_of_mem hc h
    simp only [List.cons_append, scan]
    split
    · next hq => exact scanString_append (hrest (by simp [hq])) ds
    · split
      · exact scanNumber_append h ds
      · split
        · exact scanWord_append h ds
        · exact scanSymbol_append h ds

end Scanning

/-- Every line of the text is ended, its last one too. -/
def Ended (cs : List Char) : Prop := ∀ c ∈ cs.getLast?, c = '\n'

theorem ended_concat (cs : List Char) : Ended (cs ++ ['\n']) := by
  simp [Ended]

theorem Ended.of_append {cs ds : List Char} (h : Ended (cs ++ ds)) : Ended ds := by
  intro c hc
  have hc : ds.getLast? = some c := hc
  exact h c (by rw [List.getLast?_append, hc]; rfl)

theorem Ended.append {cs : List Char} (h : Ended cs) (hne : cs ≠ []) (ds : List Char) :
    Ended (ds ++ cs) := by
  have hlast := List.getLast?_eq_some_getLast hne
  intro c hc
  rw [List.getLast?_append, hlast] at hc
  exact h c (hlast.trans hc)

theorem Ended.newline_mem {cs : List Char} (h : Ended cs) (hne : cs ≠ []) : '\n' ∈ cs := by
  have hlast := List.getLast?_eq_some_getLast hne
  exact h _ hlast ▸ List.mem_of_getLast? hlast

namespace Cursor
variable {cur rest : Cursor} {result : Except LexError Token} {t : Token} {ts : List Token}
  {e : LexError}

theorem next_append (hmem : '\n' ∈ cur.rest) (h : cur.next = (result, rest)) (ds : List Char) :
    next ⟨cur.rest ++ ds, cur.line⟩ = (result, ⟨rest.rest ++ ds, rest.line⟩) := by
  have hscan := scan_append (newline_mem_skipTrivia hmem) ds
  unfold next at h ⊢
  rw [skipTrivia_append hmem, hscan]
  split at h <;> next heq =>
    cases h
    rw [heq]

theorem ended_of_next (hcur : Ended cur.rest) (h : cur.next = (.ok t, rest)) (ht : t.kind ≠ .eof) :
    Ended rest.rest := by
  obtain ⟨tr, lx, -, hsplit, -⟩ := longest_of_next h ht
  rw [hsplit] at hcur
  exact hcur.of_append.of_append

theorem newline_mem_of_next (hcur : Ended cur.rest) (h : cur.next = (result, rest))
    (ht : ∀ t, result = .ok t → t.kind ≠ .eof) : '\n' ∈ cur.rest := by
  obtain ⟨cs, line⟩ := cur
  refine hcur.newline_mem fun hnil => ?_
  subst hnil
  obtain rfl : .ok ⟨.eof, "", line⟩ = result := congrArg Prod.fst h
  exact ht _ rfl rfl

theorem drain_append_of_error (hcur : Ended cur.rest) (h : cur.drain = (ts, some e))
    (ds : List Char) : drain ⟨cur.rest ++ ds, cur.line⟩ = (ts, some e) := by
  fun_induction drain cur generalizing ts with
  | case1 cur e' rest hnext =>
    have hmem := newline_mem_of_next hcur hnext (by simp)
    rw [drain_of_error (next_append hmem hnext ds), h]
  | case2 => simp at h
  | case3 cur t rest hnext ht _ us e' hrest ih =>
    obtain ⟨rfl, rfl⟩ := Prod.mk.inj h
    have hmem := newline_mem_of_next hcur hnext fun t h => Except.ok.inj h ▸ ht
    rw [drain_of_ne_eof (next_append hmem hnext ds) ht, ih (ended_of_next hcur hnext ht) hrest]

/-- What is behind a text without faults is scanned from its end on. -/
theorem drain_append (hcur : Ended cur.rest) (h : cur.drain = (ts, none)) (ds : List Char) :
    ∃ us line, ts = us ++ [⟨.eof, "", line⟩] ∧ drain ⟨cur.rest ++ ds, cur.line⟩ =
      (us ++ (drain ⟨ds, line⟩).1, (drain ⟨ds, line⟩).2) := by
  fun_induction drain cur generalizing ts with
  | case1 => simp at h
  | case2 cur t rest hnext ht =>
    obtain ⟨htrivia, rfl⟩ := isTrivia_of_next_eof hnext ht
    -- Trivia holds no newline, so nothing is left of the text.
    have hnil : cur.rest = [] := by
      by_contra hne
      exact htrivia.newline_not_mem (hcur.newline_mem hne)
    obtain ⟨rfl, -⟩ := Prod.mk.inj h
    exact ⟨[], cur.line, rfl, by rw [hnil]; rfl⟩
  | case3 cur t rest hnext ht _ us e' hrest ih =>
    obtain ⟨rfl, rfl⟩ := Prod.mk.inj h
    have hmem := newline_mem_of_next hcur hnext fun t h => Except.ok.inj h ▸ ht
    obtain ⟨vs, line, rfl, hdrain⟩ := ih (ended_of_next hcur hnext ht) hrest
    refine ⟨t :: vs, line, rfl, ?_⟩
    rw [drain_of_ne_eof (next_append hmem hnext ds) ht, hdrain, List.cons_append]

end Cursor

/-! The same text on later lines. -/

def Token.shift (n : Nat) (t : Token) : Token := { t with line := t.line + n }

def LexError.shift (n : Nat) (e : LexError) : LexError := { e with line := e.line + n }

namespace Cursor

def shift (n : Nat) (cur : Cursor) : Cursor := { cur with line := cur.line + n }

theorem next_shift (n : Nat) (cur : Cursor) : (cur.shift n).next =
    ((cur.next.1.map (Token.shift n)).mapError (LexError.shift n), cur.next.2.shift n) := by
  rcases hscan : scan (skipTrivia cur.rest) with ⟨_ | x, rest⟩
  · simp only [next, shift, hscan]
    rfl
  · have hline : (if x.kind = .newline then cur.line + n + 1 else cur.line + n) =
        (if x.kind = .newline then cur.line + 1 else cur.line) + n := by
      split <;> omega
    simp only [next, shift, hscan, hline]
    rfl

theorem drain_shift (n : Nat) (cur : Cursor) : (cur.shift n).drain =
    (cur.drain.1.map (Token.shift n), cur.drain.2.map (LexError.shift n)) := by
  fun_induction drain cur with
  | case1 cur e rest hnext =>
    have hnext' : (cur.shift n).next = (.error (e.shift n), rest.shift n) := by
      rw [next_shift, hnext]
      rfl
    rw [drain_of_error hnext']
    rfl
  | case2 cur t rest hnext ht =>
    have hnext' : (cur.shift n).next = (.ok (t.shift n), rest.shift n) := by
      rw [next_shift, hnext]
      rfl
    rw [drain_of_eof hnext' ht]
    rfl
  | case3 cur t rest hnext ht _ ts e hrest ih =>
    have hnext' : (cur.shift n).next = (.ok (t.shift n), rest.shift n) := by
      rw [next_shift, hnext]
      rfl
    rw [drain_of_ne_eof hnext' ht, ih, hrest]
    rfl

end Cursor

section
variable {a : String} {ts : List Token}

theorem Cursor.start_join (a b : String) : start (a ++ "\n" ++ b) =
    ⟨(start a).rest ++ (start b).rest, (start a).line⟩ := by
  simp [start]

theorem Cursor.drain_join (h : tokenize a = .ok ts) (b : String) :
    ∃ us, ts = us ++ [⟨.eof, "", 2 + a.toList.count '\n'⟩] ∧
      (start (a ++ "\n" ++ b)).drain =
        (us ++ (start b).drain.1.map (Token.shift (1 + a.toList.count '\n')),
          (start b).drain.2.map (LexError.shift (1 + a.toList.count '\n'))) := by
  obtain ⟨us, line, rfl, hdrain⟩ :=
    drain_append (ended_concat a.toList) (drain_of_tokenize h) (start b).rest
  obtain rfl : line = 2 + a.toList.count '\n' := by
    obtain ⟨vs, -, hsplit⟩ := munches_of_tokenize h
    simpa using (List.append_inj' hsplit rfl).2
  have hshift : mk (start b).rest (2 + a.toList.count '\n') =
      (start b).shift (1 + a.toList.count '\n') := by
    rw [shift, mk.injEq]
    exact ⟨rfl, Nat.add_assoc 1 1 _⟩
  rw [hshift, drain_shift] at hdrain
  exact ⟨us, rfl, by rw [start_join, hdrain]⟩

end

/-- Of two texts on lines of their own the first is scanned as it is alone, and if it has no fault
the second is as well, with all its lines counted on from there. -/
theorem tokenize_join (a b : String) :
    (∀ e, tokenize a = .error e → tokenize (a ++ "\n" ++ b) = .error e) ∧
    ∀ ts, tokenize a = .ok ts → ∃ us eof, ts = us ++ [eof] ∧ eof.kind = .eof ∧
      (∀ vs, tokenize b = .ok vs → tokenize (a ++ "\n" ++ b) =
        .ok (us ++ vs.map (Token.shift (1 + a.toList.count '\n')))) ∧
      ∀ e, tokenize b = .error e → tokenize (a ++ "\n" ++ b) =
        .error (e.shift (1 + a.toList.count '\n')) := by
  refine ⟨fun e he => ?_, fun ts hts => ?_⟩
  · obtain ⟨ts, hdrain⟩ := drain_of_tokenize_error he
    rw [tokenize, Cursor.start_join, Cursor.drain_append_of_error (ended_concat a.toList) hdrain]
  · obtain ⟨us, rfl, hdrain⟩ := Cursor.drain_join hts b
    refine ⟨us, _, rfl, rfl, fun vs hvs => ?_, fun e he => ?_⟩
    · rw [tokenize, hdrain, drain_of_tokenize hvs]
      rfl
    · obtain ⟨vs, hvs⟩ := drain_of_tokenize_error he
      rw [tokenize, hdrain, hvs]
      rfl

/-- A string that the newline leaves open, and a fault behind a text without one. -/
theorem tokenize_join_faults :
    tokenize "GOTO \"a" = .error ⟨1, .illegalStringChar '\n'⟩ ∧
      tokenize "GOTO \"a\n\" !" = .error ⟨1, .illegalStringChar '\n'⟩ ∧
        tokenize "\nx # !" = .ok [⟨.newline, "\n", 1⟩, ⟨.ident, "x", 2⟩, ⟨.newline, "\n", 2⟩,
            ⟨.eof, "", 3⟩] ∧
          tokenize "= 1" = .ok [⟨.equals, "=", 1⟩, ⟨.number, "1", 1⟩, ⟨.newline, "\n", 1⟩,
              ⟨.eof, "", 2⟩] ∧
            tokenize "\nx # !\n= 1" = .ok [⟨.newline, "\n", 1⟩, ⟨.ident, "x", 2⟩,
              ⟨.newline, "\n", 2⟩, ⟨.equals, "=", 3⟩, ⟨.number, "1", 3⟩, ⟨.newline, "\n", 3⟩,
              ⟨.eof, "", 4⟩] ∧
              tokenize "= 3." = .error ⟨1, .malformedNumber⟩ ∧
                tokenize "\nx # !\n= 3." = .error ⟨3, .malformedNumber⟩ := by
  have hopen : tokenize "GOTO \"a" = .error ⟨1, .illegalStringChar '\n'⟩ := by cbv
  have hfirst : tokenize "\nx # !" = .ok ([⟨.newline, "\n", 1⟩, ⟨.ident, "x", 2⟩,
      ⟨.newline, "\n", 2⟩] ++ [⟨.eof, "", 3⟩]) := by cbv
  have hsecond : tokenize "= 1" = .ok [⟨.equals, "=", 1⟩, ⟨.number, "1", 1⟩, ⟨.newline, "\n", 1⟩,
      ⟨.eof, "", 2⟩] := by cbv
  have hfault : tokenize "= 3." = .error ⟨1, .malformedNumber⟩ := by cbv
  obtain ⟨us, eof, hsplit, -, hok, -⟩ := (tokenize_join "\nx # !" "= 1").2 _ hfirst
  obtain ⟨-, -, -, -, -, herror⟩ := (tokenize_join "\nx # !" "= 3.").2 _ hfirst
  obtain ⟨rfl, -⟩ := List.append_inj' hsplit rfl
  exact ⟨hopen, (tokenize_join "GOTO \"a" "\" !").1 _ hopen, hfirst, hsecond, hok _ hsecond, hfault,
    herror _ hfault⟩

end TeenyToC
