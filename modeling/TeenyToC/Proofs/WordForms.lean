import TeenyToC.Proofs.ScannerCalls

/-! The forms of a word. `Word.WellFormed` says for each kind which texts it has, and no call of the
scanner gives a token of another form, not even behind a fault (`wellFormed_of_call`). Conversely
words of these forms, written one after the other with a blank in between, are read back as they are
(`tokenize_spaced_wellFormed`). -/

namespace TeenyToC

/-- Keywords and symbols have their own spelling, and what else a program holds has the text that
its kind tells. The end of the text is no word of this sort. -/
inductive Word.WellFormed : Word → Prop where
  | newline : WellFormed newlineWord
  | keyword (k : Keyword) : WellFormed k.word
  | equals : WellFormed (.equals, "=")
  | additive (op : Additive) : WellFormed op.word
  | multiplicative (op : Multiplicative) : WellFormed op.word
  | comparison (op : Comparison) : WellFormed op.word
  | name {c : Char} {cs : List Char} : c.isAlpha → (∀ d ∈ cs, d.isAlphanum) →
      (∀ k : Keyword, k.spelling ≠ String.ofList (c :: cs)) →
        WellFormed (nameWord (String.ofList (c :: cs)))
  | number {cs : List Char} : IsNumber cs → WellFormed (.number, String.ofList cs)
  | string {cs : List Char} : (∀ c ∈ cs, c ≠ '"' ∧ isControl c = false ∧ c ≠ '\\' ∧ c ≠ '%') →
      WellFormed (.string, String.ofList cs)

section
variable {w : Word} {cs text : List Char} {kind : Kind}

theorem Keyword.ofSpelling?_eq_none {s : String} (h : ∀ k : Keyword, k.spelling ≠ s) :
    Keyword.ofSpelling? s = none := by
  cases hk : Keyword.ofSpelling? s with
  | none => rfl
  | some k => exact absurd (Keyword.spelling_of_ofSpelling? hk) (h k)

theorem Word.WellFormed.valid (h : w.WellFormed) : w.Valid := by
  cases h with
  | newline => exact IsSymbol.newline.valid.1
  | equals => exact IsSymbol.equals.valid.1
  | keyword k => exact ⟨nofun, decide_eq_true rfl⟩
  | additive op | multiplicative op | comparison op => exact ⟨nofun, decide_eq_true rfl⟩
  | @name c cs hc hcs hkeyword =>
    have hident : Kind.ofWord (c :: cs) = .ident := by
      rw [Kind.ofWord, Keyword.ofSpelling?_eq_none hkeyword]
    rw [nameWord, ← hident]
    exact (IsLexeme.word hc hcs).valid.1
  | number hn => exact (IsLexeme.number hn).valid.1
  | string hcs => exact (IsLexeme.string hcs).valid.1

theorem IsSymbol.wellFormed (h : IsSymbol cs kind) : Word.WellFormed (kind, String.ofList cs) := by
  cases h with
  | newline => exact .newline
  | equals => exact .equals
  | additive op =>
    rw [String.ofList_toList]
    exact .additive op
  | multiplicative op =>
    rw [String.ofList_toList]
    exact .multiplicative op
  | comparison op =>
    rw [String.ofList_toList]
    exact .comparison op

theorem IsLexeme.wellFormed (h : IsLexeme cs kind text) :
    Word.WellFormed (kind, String.ofList text) := by
  cases h with
  | symbol hs => exact hs.wellFormed
  | number hn => exact .number hn
  | @word c cs hc hcs =>
    unfold Kind.ofWord
    split
    · next k hk =>
      rw [← Keyword.spelling_of_ofSpelling? hk]
      exact .keyword k
    · next hnone =>
      refine .name hc hcs fun k hk => ?_
      rw [← hk, Keyword.ofSpelling?_spelling] at hnone
      cases hnone
  | string hcs => exact .string hcs

end

/-- A token has the form of its kind, be it read before a fault or behind one. -/
theorem wellFormed_of_call {cur : Cursor} {n : Nat} {t : Token} (h : cur.call n = .ok t)
    (ht : t.kind ≠ .eof) : t.word.WellFormed := by
  obtain ⟨tr, lx, text, -, -, -, hlx, htoken, -⟩ := longest_of_next (Prod.ext h rfl) ht
  rw [htoken]
  exact hlx.wellFormed

/-- Words that are written with a blank between any two are read back, with the newline and the end
of the text behind them; and whatever the scanner reads, in any text and however often it is called,
are such words. -/
theorem tokenize_spaced_wellFormed :
    (∀ ws : List Word, (∀ w ∈ ws, w.WellFormed) → ∃ ts,
      tokenize (String.ofList (spaced ws)) = .ok ts ∧
        ts.map Token.word = ws ++ [newlineWord, eofWord]) ∧
    ∀ (source : String) (n : Nat) (t : Token), .ok t ∈ (Cursor.start source).steps n →
      t.kind ≠ .eof → t.word.WellFormed := by
  refine ⟨fun ws hws => tokenize_spaced fun w hw => (hws w hw).valid, fun source n t h ht => ?_⟩
  obtain ⟨i, -, hi⟩ := Cursor.mem_steps.mp h
  exact wellFormed_of_call hi ht

/-- A string that holds a comment and a number, and a name behind an illegal character. -/
theorem tokenize_spaced_wellFormed_string :
    (∃ ts, tokenize (String.ofList
        (spaced [(.string, "# 1.5 LET"), newlineWord, nameWord "LETx"])) = .ok ts ∧
      ts.map Token.word = [(.string, "# 1.5 LET"), newlineWord, nameWord "LETx"] ++
        [newlineWord, eofWord]) ∧
    .ok ⟨.ident, "b", 1⟩ ∈ (Cursor.start "\"a\tb").steps 2 ∧ Word.WellFormed (.ident, "b") := by
  have hwords : ∀ w ∈ [(Kind.string, "# 1.5 LET"), newlineWord, nameWord "LETx"],
      Word.WellFormed w := by
    have hstring : Word.WellFormed (.string, String.ofList "# 1.5 LET".toList) :=
      .string (by simp [isControl])
    have hname : Word.WellFormed (nameWord (String.ofList ('L' :: "ETx".toList))) := by
      refine .name rfl (by simp) fun k => ?_
      rcases k with _ | _ | _ | _ | _ | (_ | _) | (_ | _) | (_ | _) <;> decide
    exact List.forall_mem_cons.mpr ⟨hstring, List.forall_mem_cons.mpr ⟨.newline,
      List.forall_mem_singleton.mpr hname⟩⟩
  have hmem : .ok ⟨.ident, "b", 1⟩ ∈ (Cursor.start "\"a\tb").steps 2 := by
    have hsteps : (Cursor.start "\"a\tb").steps 2 =
        [.error ⟨1, .illegalStringChar '\t'⟩, .ok ⟨.ident, "b", 1⟩] := by cbv
    rw [hsteps]
    exact List.mem_cons_of_mem _ List.mem_cons_self
  exact ⟨tokenize_spaced_wellFormed.1 _ hwords, hmem,
    tokenize_spaced_wellFormed.2 _ _ _ hmem (by decide)⟩

end TeenyToC
