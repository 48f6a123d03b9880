import TeenyToC.Proofs.Lexemes

/-! The tokens of a program. They are valid words but for the last one, which stands for the end of
the text (`tokenize_eq_append`), and every sequence of valid words is, up to the newline that ends
each program, the sequence of the tokens of some program (`tokenize_spaced`). -/

namespace TeenyToC

def eofWord : Word := (.eof, "")

namespace Cursor
variable {cur rest : Cursor} {t : Token} {ts : List Token} {e : LexError}

theorem drain_of_eof (h : cur.next = (.ok t, rest)) (ht : t.kind = .eof) :
    cur.drain = ([t], none) := by
  rw [drain]
  split
  · next h' => simp [h] at h'
  · next h' =>
    obtain ⟨rfl, rfl⟩ : t = _ ∧ rest = _ := by simpa [h] using h'
    simp [ht]

theorem drain_of_ne_eof (h : cur.next = (.ok t, rest)) (ht : t.kind ≠ .eof) :
    cur.drain = (t :: rest.drain.1, rest.drain.2) := by
  rw [drain]
  split
  · next h' => simp [h] at h'
  · next h' =>
    obtain ⟨rfl, rfl⟩ : t = _ ∧ rest = _ := by simpa [h] using h'
    simp [ht]

theorem drain_of_error (h : cur.next = (.error e, rest)) : cur.drain = ([], some e) := by
  rw [drain]
  split
  · next h' =>
    obtain ⟨rfl, rfl⟩ : e = _ ∧ rest = _ := by simpa [h] using h'
    rfl
  · next h' => simp [h] at h'

theorem next_admits (h : cur.next = (.ok t, rest)) : t.kind.admits t.text.toList := by
  unfold next at h
  split at h
  · next hscan =>
    cases h
    simpa using scan_admits hscan
  · cases h

/-- A token has a valid word, unless it stands for the end of the text. -/
theorem valid_of_next (h : cur.next = (.ok t, rest)) (ht : t.kind ≠ .eof) : t.word.Valid :=
  ⟨ht, next_admits h⟩

theorem word_of_next_eof (h : cur.next = (.ok t, rest)) (ht : t.kind = .eof) :
    t.word = eofWord := by
  have hadmits := next_admits h
  have htext : t.text = "" := by simpa [ht, Kind.admits] using hadmits
  simp [Token.word, eofWord, ht, htext]

theorem drain_eq_append (h : cur.drain = (ts, none)) :
    ∃ us eof, ts = us ++ [eof] ∧ eof.word = eofWord ∧ ∀ t ∈ us, t.word.Valid := by
  fun_induction drain cur generalizing ts with
  | case1 => simp at h
  | case2 cur t rest hnext ht =>
    obtain ⟨rfl, -⟩ := Prod.mk.inj h
    exact ⟨[], t, rfl, word_of_next_eof hnext ht, by simp⟩
  | case3 cur t rest hnext ht _ us e hrest ih =>
    obtain ⟨rfl, rfl⟩ := Prod.mk.inj h
    obtain ⟨vs, eof, rfl, heof, hvalid⟩ := ih hrest
    refine ⟨t :: vs, eof, rfl, heof, ?_⟩
    exact List.forall_mem_cons.mpr ⟨valid_of_next hnext ht, hvalid⟩

end Cursor

theorem drain_of_tokenize {source : String} {ts : List Token} (h : tokenize source = .ok ts) :
    (Cursor.start source).drain = (ts, none) := by
  unfold tokenize at h
  split at h
  · next hdrain =>
    cases h
    exact hdrain
  · cases h

theorem drain_of_tokenize_error {source : String} {e : LexError} (h : tokenize source = .error e) :
    ∃ ts, (Cursor.start source).drain = (ts, some e) := by
  unfold tokenize at h
  split at h
  · cases h
  · next ts e' hdrain =>
    cases h
    exact ⟨ts, hdrain⟩

theorem tokenize_eq_append {source : String} {ts : List Token} (h : tokenize source = .ok ts) :
    ∃ us eof, ts = us ++ [eof] ∧ eof.word = eofWord ∧ ∀ t ∈ us, t.word.Valid :=
  Cursor.drain_eq_append (drain_of_tokenize h)

theorem valid_of_tokenize {source : String} {ts : List Token} {ws : List Word}
    (h : tokenize source = .ok ts) (hws : ts.map Token.word = ws ++ [eofWord]) :
    ∀ w ∈ ws, w.Valid := by
  obtain ⟨us, eof, rfl, heof, hvalid⟩ := tokenize_eq_append h
  rw [List.map_append, List.map_singleton, heof] at hws
  rw [← List.append_cancel_right hws]
  intro w hw
  obtain ⟨t, ht, rfl⟩ := List.mem_map.mp hw
  exact hvalid t ht

/-- Nothing of a word is taken for a blank or a comment. -/
theorem skipTrivia_cons {c : Char} (r : List Char) (hb : isBlank c = false) (hc : c ≠ '#') :
    skipTrivia (c :: r) = c :: r := by
  simp only [skipTrivia, List.dropWhile_cons, hb]
  split
  · next h =>
    cases h
    exact absurd rfl hc
  · rfl

theorem skipTrivia_of_isName {cs : List Char} (h : isName cs) (r : List Char) :
    skipTrivia (cs ++ r) = cs ++ r := by
  cases cs with
  | nil => simp [isName] at h
  | cons c cs =>
    simp only [isName, Bool.and_eq_true] at h
    have hne {d : Char} (hd : d.isAlpha = false) : c ≠ d := ne_of_isAlpha h.1 hd
    have hblank : isBlank c = false := by
      simp [isBlank, hne (d := ' ') (by decide), hne (d := '\t') (by decide),
        hne (d := '\r') (by decide)]
    exact skipTrivia_cons (cs ++ r) hblank (hne (by decide))

theorem skipTrivia_of_isNumeral {cs : List Char} (h : isNumeral cs) (r : List Char) :
    skipTrivia (cs ++ r) = cs ++ r := by
  cases cs with
  | nil => simp [isNumeral] at h
  | cons c cs =>
    have hc : c.isDigit := isDigit_of_isNumeral h
    have hne {d : Char} (hd : d.isDigit = false) : c ≠ d := ne_of_isDigit hc hd
    have hblank : isBlank c = false := by
      simp [isBlank, hne (d := ' ') (by decide), hne (d := '\t') (by decide),
        hne (d := '\r') (by decide)]
    exact skipTrivia_cons (cs ++ r) hblank (hne (by decide))

theorem skipTrivia_spelling {w : Word} (hw : w.Valid) (r : List Char) :
    skipTrivia (w.spelling ++ r) = w.spelling ++ r := by
  obtain ⟨kind, text⟩ := w
  obtain ⟨hne, hadmits⟩ := hw
  cases kind with
  | eof => exact absurd rfl hne
  | number => exact skipTrivia_of_isNumeral hadmits r
  | ident =>
    have h : isName text.toList ∧ Keyword.ofSpelling? text = none := by
      simpa [Kind.admits] using hadmits
    exact skipTrivia_of_isName h.1 r
  | string => exact skipTrivia_cons _ (by decide) (by decide)
  | keyword k =>
    have h : text.toList = k.spelling.toList := by simpa [Kind.admits] using hadmits
    simpa [Word.spelling, h] using skipTrivia_of_isName (isName_spelling k) r
  | newline | equals =>
    simp only [Kind.admits, decide_eq_true_eq] at hadmits
    simp only [Word.spelling, hadmits]
    exact skipTrivia_cons _ (by decide) (by decide)
  | additive op | multiplicative op | comparison op =>
    simp only [Kind.admits, decide_eq_true_eq] at hadmits
    simp only [Word.spelling, hadmits]
    cases op <;> exact skipTrivia_cons _ (by decide) (by decide)

theorem Lexes.spelling {w : Word} {ws : List Word} {m r : List Char} (hw : w.Valid) (hm : Ends m)
    (h : Lexes m ws r) : Lexes (w.spelling ++ m) (w :: ws) r := by
  have hscan := scan_spelling hw (hm.endsAt _)
  have hlexes := Lexes.cons (x := ⟨w.1, w.2.toList⟩) (by rw [skipTrivia_spelling hw, hscan])
    hw.ne_eof h
  simpa [Lexeme.word] using hlexes

/-- The text of a list of words, with a blank between any two. -/
def spaced (ws : List Word) : List Char := [' '].intercalate (ws.map Word.spelling)

theorem lexes_spaced {ws : List Word} (h : ∀ w ∈ ws, w.Valid) :
    Lexes (spaced ws ++ ['\n']) ws ['\n'] := by
  have hend : Ends ['\n'] := ends_cons [] (by decide) (by decide) (by decide)
  -- Each word is scanned up to the blank after it, and the last one up to the newline.
  induction ws with
  | nil => exact .nil _
  | cons w ws ih =>
    obtain ⟨hw, hws⟩ := List.forall_mem_cons.mp h
    cases ws with
    | nil => simpa [spaced] using Lexes.spelling hw hend (.nil _)
    | cons v ws =>
      have hblank : Ends (' ' :: (spaced (v :: ws) ++ ['\n'])) :=
        ends_cons _ (by decide) (by decide) (by decide)
      simpa [spaced, List.intercalate] using Lexes.spelling hw hblank (ih hws).blank

theorem Lexes.drain {cs r : List Char} {ws : List Word} (h : Lexes cs ws r) (line : Nat) :
    ∃ us line', us.map Token.word = ws ∧ Cursor.drain ⟨cs, line⟩ =
      (us ++ (Cursor.drain ⟨r, line'⟩).1, (Cursor.drain ⟨r, line'⟩).2) := by
  induction h generalizing line with
  | nil r => exact ⟨[], line, rfl, rfl⟩
  | @cons cs m r x ws hscan hne _ ih =>
    obtain ⟨us, line', hus, hdrain⟩ := ih (if x.kind = .newline then line + 1 else line)
    have hnext : Cursor.next ⟨cs, line⟩ = (.ok ⟨x.kind, String.ofList x.text, line⟩,
        ⟨m, if x.kind = .newline then line + 1 else line⟩) := by
      simp [Cursor.next, hscan]
    refine ⟨⟨x.kind, String.ofList x.text, line⟩ :: us, line', ?_, ?_⟩
    · simp [hus, Token.word, Lexeme.word]
    · rw [Cursor.drain_of_ne_eof hnext hne, hdrain]
      rfl

theorem tokenize_spaced {ws : List Word} (h : ∀ w ∈ ws, w.Valid) :
    ∃ ts, tokenize (String.ofList (spaced ws)) = .ok ts ∧
      ts.map Token.word = ws ++ [newlineWord, eofWord] := by
  obtain ⟨us, line, hus, hdrain⟩ := (lexes_spaced h).drain 1
  have hnewline : Cursor.next ⟨['\n'], line⟩ = (.ok ⟨.newline, "\n", line⟩, ⟨[], line + 1⟩) := rfl
  have hend : Cursor.next ⟨[], line + 1⟩ = (.ok ⟨.eof, "", line + 1⟩, ⟨[], line + 1⟩) := rfl
  rw [Cursor.drain_of_ne_eof hnewline (by simp), Cursor.drain_of_eof hend rfl] at hdrain
  refine ⟨us ++ [⟨.newline, "\n", line⟩, ⟨.eof, "", line + 1⟩], ?_, ?_⟩
  · simp [tokenize, Cursor.start, hdrain]
  · simp [hus, Token.word, newlineWord, eofWord]

end TeenyToC
