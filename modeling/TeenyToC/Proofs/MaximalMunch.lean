import Mathlib
import TeenyToC.Proofs.LexicalGrammar

/-! Texts cut into trivia and lexemes in turn, each as long as it can be (`Munches`). A text that is
cut so up to its end has the lexemes for its tokens, on the lines where they stand, and no other
text can be split into tokens (`tokenize_eq_ok_iff`). No character is lost on the way: the pieces
are the text. -/

namespace TeenyToC

/-- After the characters `before`, the text `cs` is cut up to its rest `r`, into the lexemes of the
tokens `ts` with trivia in front of each. -/
inductive Munches : List Char → List Char → List Token → List Char → Prop where
  | nil (before r : List Char) : Munches before r [] r
  | cons {before tr lx rest r text : List Char} {kind : Kind} {ts : List Token} :
      LongestPrefix IsTrivia tr (tr ++ (lx ++ rest)) → LongestPrefix Lexical lx (lx ++ rest) →
        IsLexeme lx kind text → Munches (before ++ tr ++ lx) rest ts r →
          Munches before (tr ++ (lx ++ rest))
            (⟨kind, String.ofList text, 1 + (before ++ tr).count '\n'⟩ :: ts) r

/-! Lines. Of all pieces only the newline itself holds one. -/

section Lines
variable {cs text : List Char} {kind : Kind}

theorem IsTrivia.newline_not_mem (h : IsTrivia cs) : '\n' ∉ cs := by
  cases h with
  | blanks hbs => exact fun hmem => by simpa using hbs _ hmem
  | comment hbs hcs =>
    intro hmem
    rcases List.mem_append.mp hmem with hmem | hmem
    · simpa using hbs _ hmem
    · exact hcs (List.mem_of_ne_of_mem (by decide) hmem)

theorem IsNumber.newline_not_mem (h : IsNumber cs) : '\n' ∉ cs := by
  cases h with
  | whole hds => exact fun hmem => absurd (hds.2 _ hmem) (by decide)
  | decimal hds hfs =>
    intro hmem
    rcases List.mem_append.mp hmem with hmem | hmem
    · exact absurd (hds.2 _ hmem) (by decide)
    · exact absurd (hfs.2 _ (List.mem_of_ne_of_mem (by decide) hmem)) (by decide)

theorem IsLexeme.newline_not_mem (h : IsLexeme cs kind text) (hk : kind ≠ .newline) :
    '\n' ∉ cs := by
  cases h with
  | symbol hs =>
    cases hs with
    | newline => exact absurd rfl hk
    | equals => decide
    | additive op | multiplicative op | comparison op => cases op <;> decide
  | number hn => exact hn.newline_not_mem
  | word hc hcs =>
    intro hmem
    rcases List.mem_cons.mp hmem with rfl | hmem
    · exact absurd hc (by decide)
    · exact absurd (hcs _ hmem) (by decide)
  | string hbody =>
    intro hmem
    have hmem : '\n' ∈ text := by simpa using hmem
    exact absurd (hbody _ hmem).2.1 (by decide)

theorem IsLexeme.eq_newline (h : IsLexeme cs .newline text) : cs = ['\n'] ∧ text = ['\n'] := by
  generalize hk : Kind.newline = kind at h
  cases h with
  | symbol hs => cases hs <;> first | exact ⟨rfl, rfl⟩ | cases hk
  | number hn => cases hk
  | word => exact absurd hk.symm (Kind.ofWord_ne (by simp) (by simp) _)
  | string => cases hk

theorem IsLexeme.count_newline (h : IsLexeme cs kind text) :
    cs.count '\n' = if kind = .newline then 1 else 0 := by
  split
  · next hk =>
    subst hk
    rw [h.eq_newline.1]
    rfl
  · next hk => exact List.count_eq_zero_of_not_mem (h.newline_not_mem hk)

theorem IsTrivia.count_newline (h : IsTrivia cs) (before : List Char) :
    (before ++ cs).count '\n' = before.count '\n' := by
  rw [List.count_append, List.count_eq_zero_of_not_mem h.newline_not_mem, Nat.add_zero]

theorem count_newline_piece {tr lx : List Char} (htr : IsTrivia tr) (hlx : IsLexeme lx kind text)
    (before : List Char) : (before ++ tr ++ lx).count '\n' =
      if kind = .newline then before.count '\n' + 1 else before.count '\n' := by
  rw [List.count_append, htr.count_newline, hlx.count_newline]
  split <;> rfl

end Lines

section
variable {before cs tr lx rest r text : List Char} {kind : Kind} {ts : List Token}

theorem Munches.head?_ne_point (h : Munches before cs ts r) (hr : IsTrivia r) :
    cs.head? ≠ some '.' := by
  have htrivia {tr : List Char} (htr : IsTrivia tr) : tr.head? ≠ some '.' := by
    intro hhead
    have hmem : '.' ∈ tr := List.mem_of_head? hhead
    cases htr with
    | blanks hbs => simpa using hbs _ hmem
    | @comment bs cs hbs =>
      cases bs with
      | nil => simp at hhead
      | cons b bs =>
        obtain rfl : b = '.' := by simpa using hhead
        simpa using hbs '.' List.mem_cons_self
  cases h with
  | nil => exact htrivia hr
  | @cons _ tr lx rest _ _ _ _ htr _ hlx _ =>
    cases tr with
    | nil =>
      obtain ⟨c, ds, rfl, hc⟩ := hlx.exists_cons
      simpa using hc
    | cons c tr => simpa using htrivia htr.mem

/-- The cursor stands on the line that is told by the newlines before it. -/
theorem next_of_longest (before : List Char) (htr : LongestPrefix IsTrivia tr (tr ++ (lx ++ rest)))
    (hlongest : LongestPrefix Lexical lx (lx ++ rest)) (hlx : IsLexeme lx kind text)
    (hrest : IsDigits lx → rest.head? ≠ some '.') :
    Cursor.next ⟨tr ++ (lx ++ rest), 1 + before.count '\n'⟩ =
      (.ok ⟨kind, String.ofList text, 1 + (before ++ tr).count '\n'⟩,
        ⟨rest, 1 + (before ++ tr ++ lx).count '\n'⟩) := by
  simp only [Cursor.next, skipTrivia_of_longest htr, scan_of_longest hlx hlongest hrest,
    htr.mem.count_newline, count_newline_piece htr.mem hlx]
  split <;> rfl

theorem drain_of_munches (h : Munches before cs ts r) (hr : IsTrivia r) :
    Cursor.drain ⟨cs, 1 + before.count '\n'⟩ =
      (ts ++ [⟨.eof, "", 1 + (before ++ cs).count '\n'⟩], none) := by
  induction h with
  | nil before r =>
    have hlongest : LongestPrefix IsTrivia r (r ++ []) := by
      rw [List.append_nil]
      exact ⟨hr, List.prefix_refl r, fun q _ hq => hq.length_le⟩
    have hskip := skipTrivia_of_longest hlongest
    rw [List.append_nil] at hskip
    have hnext : Cursor.next ⟨r, 1 + before.count '\n'⟩ =
        (.ok ⟨.eof, "", 1 + before.count '\n'⟩, ⟨[], 1 + before.count '\n'⟩) := by
      rw [Cursor.next, hskip]
      rfl
    rw [Cursor.drain_of_eof hnext rfl, hr.count_newline]
    rfl
  | @cons before tr lx rest r text kind ts htr hlongest hlx hrest ih =>
    have hnext := next_of_longest before htr hlongest hlx fun _ => hrest.head?_ne_point hr
    rw [Cursor.drain_of_ne_eof hnext hlx.valid.1.ne_eof, ih hr]
    simp only [List.append_assoc, List.cons_append]

/-- The next token is the next lexeme, after trivia. -/
theorem longest_of_next {line : Nat} {t : Token} {cur : Cursor}
    (h : Cursor.next ⟨cs, line⟩ = (.ok t, cur)) (ht : t.kind ≠ .eof) :
    ∃ tr lx text, cs = tr ++ (lx ++ cur.rest) ∧ LongestPrefix IsTrivia tr cs ∧
      LongestPrefix Lexical lx (lx ++ cur.rest) ∧ IsLexeme lx t.kind text ∧
        t = ⟨t.kind, String.ofList text, line⟩ ∧
          cur.line = if t.kind = .newline then line + 1 else line := by
  unfold Cursor.next at h
  split at h
  · next x rest hscan =>
    cases h
    obtain ⟨tr, hsplit, htr⟩ := longest_skipTrivia cs
    obtain ⟨lx, hread, hlx, hlongest⟩ := readsLongest_scan hscan ht
    exact ⟨tr, lx, x.text, hread ▸ hsplit, htr, hread ▸ hlongest, hlx, rfl, rfl⟩
  · cases h

theorem isTrivia_of_next_eof {line : Nat} {t : Token} {cur : Cursor}
    (h : Cursor.next ⟨cs, line⟩ = (.ok t, cur)) (ht : t.kind = .eof) :
    IsTrivia cs ∧ t = ⟨.eof, "", line⟩ := by
  unfold Cursor.next at h
  split at h
  · next x rest hscan =>
    cases h
    obtain ⟨tr, hsplit, htr⟩ := longest_skipTrivia cs
    cases hskip : skipTrivia cs with
    | nil =>
      rw [hskip] at hscan hsplit
      cases hscan
      rw [List.append_nil] at hsplit
      exact ⟨hsplit ▸ htr.mem, rfl⟩
    | cons c ds =>
      rw [hskip] at hscan
      exact absurd ht (scan_ne_eof hscan)
  · cases h

theorem munches_of_drain {cur : Cursor} (hline : cur.line = 1 + before.count '\n')
    (h : cur.drain = (ts, none)) : ∃ us tail, Munches before cur.rest us tail ∧ IsTrivia tail ∧
      ts = us ++ [⟨.eof, "", 1 + (before ++ cur.rest).count '\n'⟩] := by
  fun_induction Cursor.drain cur generalizing ts before with
  | case1 => simp at h
  | case2 cur t rest hnext ht =>
    obtain ⟨rfl, -⟩ := Prod.mk.inj h
    obtain ⟨htrivia, ht⟩ := isTrivia_of_next_eof hnext ht
    refine ⟨[], cur.rest, .nil _ _, htrivia, ?_⟩
    rw [ht, hline, htrivia.count_newline]
    rfl
  | case3 cur t rest hnext ht _ us e hrest ih =>
    obtain ⟨rfl, rfl⟩ := Prod.mk.inj h
    obtain ⟨tr, lx, text, hsplit, htr, hlongest, hlx, htoken, hrestLine⟩ := longest_of_next hnext ht
    have hline' : rest.line = 1 + (before ++ tr ++ lx).count '\n' := by
      rw [hrestLine, hline, count_newline_piece htr.mem hlx]
      split <;> rfl
    obtain ⟨vs, tail, hvs, htail, rfl⟩ := ih hline' hrest
    refine ⟨t :: vs, tail, ?_, htail, ?_⟩
    · rw [htoken, hline, hsplit]
      have hcons : Munches before (tr ++ (lx ++ rest.rest)) (⟨t.kind, _, _⟩ :: vs) tail :=
        .cons (hsplit ▸ htr) hlongest hlx hvs
      rwa [htr.mem.count_newline] at hcons
    · rw [hsplit]
      simp only [List.append_assoc, List.cons_append]

theorem Munches.eq_nil (h : Munches before [] ts r) : ts = [] ∧ r = [] := by
  generalize hcs : ([] : List Char) = cs at h
  cases h with
  | nil => exact ⟨rfl, rfl⟩
  | cons _ _ hlx _ =>
    obtain ⟨c, ds, rfl, -⟩ := hlx.exists_cons
    simp at hcs

/-- The newline that ends a text is its last lexeme. -/
theorem Munches.exists_last {body : List Char} (h : Munches before (body ++ ['\n']) ts r)
    (hr : IsTrivia r) :
    r = [] ∧ ∃ us, ts = us ++ [⟨.newline, "\n", 1 + (before ++ body).count '\n'⟩] := by
  -- The induction is on the cuts, so the text is taken apart at its end in each of them.
  generalize hcs : body ++ ['\n'] = cs at h
  induction h generalizing body with
  | nil => exact absurd (by simp [← hcs]) hr.newline_not_mem
  | @cons before tr lx rest r text kind ts htr _ hlx hrest ih =>
    rcases List.eq_nil_or_concat rest with rfl | ⟨body', c, rfl⟩
    · obtain ⟨rfl, rfl⟩ := hrest.eq_nil
      have hmem : '\n' ∈ lx := by
        have hmem : '\n' ∈ tr ++ (lx ++ []) := hcs ▸ List.mem_append_right body (by simp)
        simpa [htr.mem.newline_not_mem] using hmem
      obtain rfl : kind = .newline := by
        by_contra hk
        exact hlx.newline_not_mem hk hmem
      obtain ⟨rfl, rfl⟩ := hlx.eq_newline
      rw [List.append_nil] at hcs
      rw [List.append_cancel_right hcs]
      exact ⟨rfl, [], rfl⟩
    · rw [List.concat_eq_append] at hcs ih
      have hsplit : body ++ ['\n'] = (tr ++ (lx ++ body')) ++ [c] := by simpa using hcs
      obtain ⟨rfl, hc⟩ := List.append_inj' hsplit rfl
      have hbody : body' ++ ['\n'] = body' ++ [c] := by rw [hc]
      obtain ⟨hnil, us, hus⟩ := ih hr hbody
      refine ⟨hnil, ⟨kind, String.ofList text, 1 + (before ++ tr).count '\n'⟩ :: us, ?_⟩
      rw [hus]
      simp only [List.append_assoc, List.cons_append]

theorem Munches.kind_ne_eof (h : Munches before cs ts r) {t : Token} (ht : t ∈ ts) :
    t.kind ≠ .eof := by
  induction h with
  | nil => simp at ht
  | cons _ _ hlx _ ih =>
    rcases List.mem_cons.mp ht with rfl | ht
    · exact hlx.valid.1.ne_eof
    · exact ih ht

end

section
variable {source : String} {ts : List Token}

/-- The newline behind a text is one more line. -/
theorem line_at_end (source : String) :
    1 + ([] ++ (source.toList ++ ['\n'])).count '\n' = 2 + source.toList.count '\n' := by
  rw [List.nil_append, List.count_append, List.count_singleton_self]
  omega

theorem munches_of_tokenize (h : tokenize source = .ok ts) :
    ∃ us, Munches [] (source.toList ++ ['\n']) us [] ∧
      ts = us ++ [⟨.eof, "", 2 + source.toList.count '\n'⟩] := by
  have hline : (Cursor.start source).line = 1 + ([] : List Char).count '\n' := rfl
  obtain ⟨us, tail, hus, htail, hts⟩ := munches_of_drain hline (drain_of_tokenize h)
  obtain ⟨rfl, -⟩ := hus.exists_last htail
  exact ⟨us, hus, line_at_end source ▸ hts⟩

theorem tokenize_of_munches (h : Munches [] (source.toList ++ ['\n']) ts []) :
    tokenize source = .ok (ts ++ [⟨.eof, "", 2 + source.toList.count '\n'⟩]) := by
  have hdrain : (Cursor.start source).drain = (ts ++ [⟨.eof, "", _⟩], none) :=
    drain_of_munches h (.blanks (by simp))
  rw [line_at_end] at hdrain
  simp only [tokenize, hdrain]

end

/-- A text is split into tokens exactly if it can be cut into trivia and lexemes, with a newline
behind it; the tokens are those of the lexemes, of which that newline is the last. -/
theorem tokenize_eq_ok_iff (source : String) (ts : List Token) :
    (tokenize source = .ok ts ↔ ∃ us, Munches [] (source.toList ++ ['\n']) us [] ∧
      ts = us ++ [⟨.eof, "", 2 + source.toList.count '\n'⟩]) ∧
    (tokenize source = .ok ts → ∃ us, (∀ t ∈ us, t.kind ≠ .eof) ∧
      ts = us ++ [⟨.newline, "\n", 1 + source.toList.count '\n'⟩,
        ⟨.eof, "", 2 + source.toList.count '\n'⟩]) := by
  refine ⟨⟨munches_of_tokenize, ?_⟩, fun h => ?_⟩
  · rintro ⟨us, hus, rfl⟩
    exact tokenize_of_munches hus
  · obtain ⟨us, hus, rfl⟩ := munches_of_tokenize h
    obtain ⟨-, vs, rfl⟩ := hus.exists_last (.blanks (by simp))
    refine ⟨vs, fun t ht => hus.kind_ne_eof (List.mem_append_left _ ht), ?_⟩
    rw [List.append_assoc]
    rfl

/-- The longest symbol, and a comment up to the newline that is put behind the text. -/
theorem tokenize_eq_ok_iff_comment :
    ∃ us, tokenize "a <=1.5 # half" = .ok (us ++ [⟨.eof, "", 2⟩]) ∧
      us = [⟨.ident, "a", 1⟩, ⟨.comparison .le, "<=", 1⟩, ⟨.number, "1.5", 1⟩,
        ⟨.newline, "\n", 1⟩] ∧
      Munches [] ("a <=1.5 # half".toList ++ ['\n']) us [] ∧
      ∃ vs, (∀ t ∈ vs, t.kind ≠ .eof) ∧
        us ++ [⟨.eof, "", 2⟩] = vs ++ [⟨.newline, "\n", 1⟩, ⟨.eof, "", 2⟩] := by
  have htokens : tokenize "a <=1.5 # half" = .ok ([⟨.ident, "a", 1⟩, ⟨.comparison .le, "<=", 1⟩,
      ⟨.number, "1.5", 1⟩, ⟨.newline, "\n", 1⟩] ++ [⟨.eof, "", 2⟩]) := by cbv
  obtain ⟨us, hus, hsplit⟩ := (tokenize_eq_ok_iff _ _).1.mp htokens
  obtain ⟨rfl, -⟩ := List.append_inj' hsplit rfl
  exact ⟨_, htokens, rfl, hus, (tokenize_eq_ok_iff _ _).2 htokens⟩

end TeenyToC
