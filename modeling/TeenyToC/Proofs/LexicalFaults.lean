import TeenyToC.Proofs.LineBoundaries
import TeenyToC.Proofs.Lookahead

/-! The faults of a text. What cannot be scanned begins with one of four things (`IsFault`), and no
text begins with two of them. A text that is not split into tokens is cut into lexemes and trivia up
to the place where one of them stands, and is refused for it (`tokenize_eq_error_iff`). Since every
text has a newline behind it and a newline is illegal in a string, no string is left open. -/

namespace TeenyToC

/-- A text that begins with a fault, and the characters of it before the one that is wrong. -/
inductive IsFault : List Char → LexFault → List Char → Prop where
  | string {body rest : List Char} {c : Char} :
      (∀ d ∈ body, d ≠ '"' ∧ isControl d = false ∧ d ≠ '\\' ∧ d ≠ '%') →
        (isControl c ∨ c = '\\' ∨ c = '%') →
          IsFault ('"' :: (body ++ c :: rest)) (.illegalStringChar c) ('"' :: body)
  | number {ds rest : List Char} {c : Char} : IsDigits ds → c.isDigit = false →
      IsFault (ds ++ '.' :: c :: rest) .malformedNumber ds
  | notEqual {rest : List Char} {c : Char} : c ≠ '=' →
      IsFault ('!' :: c :: rest) (.incompleteNotEqual c) []
  | unknown {rest : List Char} {c : Char} : c.isAlpha = false → c.isDigit = false →
      c ∉ ['"', '!', '#', ' ', '\t', '\r', '\n', '=', '<', '>', '+', '-', '*', '/'] →
        IsFault (c :: rest) (.unknownChar c) []

/-! The scanner refuses these texts and no others. -/

section Scanning
variable {cs r lead rest : List Char} {c : Char} {fault : LexFault} {x : Lexeme}

theorem isStringPart_eq_false_iff (hc : c ≠ '"') :
    isStringPart c = false ↔ isControl c ∨ c = '\\' ∨ c = '%' := by
  simp [isStringPart, isIllegal, hc, Classical.or_iff_not_imp_left]

theorem IsFault.scan_eq (h : IsFault cs fault lead) :
    ∃ rest, cs = lead ++ rest ∧ scan cs = (.error fault, rest) := by
  cases h with
  | @string body rest c hbody hc =>
    have hquote : c ≠ '"' := by
      rintro rfl
      revert hc
      decide
    have hpart := (isStringPart_eq_false_iff hquote).mpr hc
    have hdrop : (body ++ c :: rest).dropWhile isStringPart = c :: rest :=
      dropWhile_append_cons (fun d hd => isStringPart_iff.mpr (hbody d hd)) hpart
    refine ⟨c :: rest, rfl, ?_⟩
    simp [scan, scanString_of_dropWhile hdrop, hquote]
  | @number _ rest c hds hc =>
    have hdrop : (lead ++ '.' :: c :: rest).dropWhile Char.isDigit = '.' :: c :: rest :=
      dropWhile_append_cons hds.2 (by decide)
    refine ⟨'.' :: c :: rest, rfl, ?_⟩
    obtain ⟨d, es, rfl, hd⟩ := hds.exists_cons
    rw [List.cons_append] at hdrop ⊢
    simp [scan, scanNumber, hdrop, hc, hd, ne_of_isDigit hd (d := '"') (by decide)]
  | @notEqual rest c hc =>
    exact ⟨'!' :: c :: rest, rfl, by simp [scan, scanSymbol, Kind.ofCharEquals?, Kind.ofChar?, hc]⟩
  | @unknown rest c ha hd hc =>
    simp only [List.mem_cons, List.not_mem_nil, or_false, not_or] at hc
    exact ⟨c :: rest, rfl, by simp [scan, scanSymbol, Kind.ofCharEquals?, Kind.ofChar?, ha, hd, hc]⟩

theorem IsFault.unique {fault' : LexFault} {lead' : List Char} (h : IsFault cs fault lead)
    (h' : IsFault cs fault' lead') : fault' = fault ∧ lead' = lead := by
  obtain ⟨rest, hsplit, hscan⟩ := h.scan_eq
  obtain ⟨rest', hsplit', hscan'⟩ := h'.scan_eq
  obtain ⟨hfault, rfl⟩ := Prod.mk.inj (hscan'.symm.trans hscan)
  exact ⟨Except.error.inj hfault, List.append_cancel_right (hsplit'.symm.trans hsplit)⟩

/-- The span of a class ends where a character outside of it stands. -/
theorem exists_span {P : Char → Bool} (hc : c ∈ cs) (hP : P c = false) :
    ∃ xs d r, cs = xs ++ d :: r ∧ (∀ x ∈ xs, P x) ∧ P d = false := by
  have hne := List.ne_nil_of_mem (mem_dropWhile hc hP)
  refine ⟨cs.takeWhile P, (cs.dropWhile P).head hne, (cs.dropWhile P).tail, ?_,
    fun x hx => List.mem_takeWhile_imp hx, List.head_dropWhile_not P hne⟩
  rw [List.cons_head_tail, List.takeWhile_append_dropWhile]

theorem isFault_of_scanString (hcs : '\n' ∈ cs) (h : scanString cs = (.error fault, rest)) :
    ∃ lead, '"' :: cs = lead ++ rest ∧ IsFault ('"' :: cs) fault lead := by
  obtain ⟨body, c, r, rfl, hbody, hc⟩ := exists_span (P := isStringPart) hcs (by decide)
  rw [scanString_of_dropWhile (dropWhile_append_cons hbody hc)] at h
  split at h
  · cases h
  · next hquote =>
    cases h
    have hbody : ∀ d ∈ body, d ≠ '"' ∧ isControl d = false ∧ d ≠ '\\' ∧ d ≠ '%' :=
      fun d hd => isStringPart_iff.mp (hbody d hd)
    exact ⟨'"' :: body, rfl, .string hbody ((isStringPart_eq_false_iff hquote).mp hc)⟩

theorem isFault_of_scanNumber (hc : c.isDigit) (hcs : '\n' ∈ cs)
    (h : scanNumber (c :: cs) = (.error fault, rest)) :
    ∃ lead, c :: cs = lead ++ rest ∧ IsFault (c :: cs) fault lead := by
  obtain ⟨ds, d, r, hsplit, hds, hd⟩ :=
    exists_span (P := Char.isDigit) (List.mem_cons_of_mem c hcs) (by decide)
  have hdigits : IsDigits ds := by
    refine ⟨?_, hds⟩
    rintro rfl
    obtain ⟨rfl, -⟩ := List.cons.inj hsplit
    simp [hc] at hd
  have hline : '\n' ∈ d :: r := by
    have hmem : '\n' ∈ ds ++ d :: r := hsplit ▸ List.mem_cons_of_mem c hcs
    refine (List.mem_append.mp hmem).resolve_left fun hmem => ?_
    exact absurd (hds _ hmem) (by decide)
  rw [hsplit] at h ⊢
  unfold scanNumber at h
  rw [dropWhile_append_cons hds hd] at h
  split at h
  · next s heq =>
    obtain ⟨rfl, rfl⟩ := List.cons.inj heq
    split at h
    · next hnone =>
      cases h
      obtain ⟨d, r, rfl⟩ :=
        List.exists_cons_of_ne_nil (List.ne_nil_of_mem (List.mem_of_ne_of_mem (by decide) hline))
      exact ⟨ds, rfl, .number hdigits (by simpa using hnone)⟩
    · cases h
  · cases h

theorem isFault_of_scanSymbol (hcs : '\n' ∈ c :: cs) (hq : c ≠ '"') (hd : c.isDigit = false)
    (ha : c.isAlpha = false) (hb : isBlank c = false) (hp : c ≠ '#')
    (h : scanSymbol c cs = (.error fault, rest)) :
    rest = c :: cs ∧ IsFault (c :: cs) fault [] := by
  by_cases hpair : Kind.ofCharEquals? c ≠ none ∧ cs.head? = some '='
  · obtain ⟨hk, hhead⟩ := hpair
    obtain ⟨kind, hk⟩ := Option.ne_none_iff_exists'.mp hk
    obtain ⟨r, rfl⟩ := List.head?_eq_some_iff.mp hhead
    rw [scanSymbol_of_pair hk] at h
    cases h
  have hne : Kind.ofCharEquals? c ≠ none → cs.head? ≠ some '=' := by simpa using hpair
  cases hk : Kind.ofChar? c with
  | some kind =>
    rw [scanSymbol_of_single hne hk] at h
    cases h
  | none =>
    rw [scanSymbol_of_none hne hk] at h
    obtain ⟨hfault, rfl⟩ := Prod.mk.inj h
    obtain rfl := Except.error.inj hfault
    refine ⟨rfl, ?_⟩
    split
    · next hc =>
      subst hc
      obtain ⟨d, r, rfl⟩ :=
        List.exists_cons_of_ne_nil (List.ne_nil_of_mem (List.mem_of_ne_of_mem (by decide) hcs))
      exact .notEqual (by simpa [Kind.ofCharEquals?] using hne)
    · next hc =>
      have hknown : ∀ c ∈ ['"', '!', '#', ' ', '\t', '\r', '\n', '=', '<', '>', '+', '-', '*', '/'],
          c = '"' ∨ c = '!' ∨ c = '#' ∨ isBlank c ∨ Kind.ofChar? c ≠ none := by
        simp [isBlank, Kind.ofChar?]
      refine .unknown ha hd fun hmem => ?_
      simpa [hq, hc, hp, hb, hk] using hknown c hmem

theorem isFault_of_scan (hcs : '\n' ∈ cs) (hhead : ∀ c ∈ cs.head?, isBlank c = false ∧ c ≠ '#')
    (h : scan cs = (.error fault, rest)) :
    ∃ lead, cs = lead ++ rest ∧ IsFault cs fault lead := by
  cases cs with
  | nil => cases hcs
  | cons c r =>
    have hrest (hc : '\n' ≠ c) : '\n' ∈ r := List.mem_of_ne_of_mem hc hcs
    obtain ⟨hb, hp⟩ := hhead c rfl
    simp only [scan] at h
    split at h
    · next hq =>
      subst hq
      exact isFault_of_scanString (hrest (by decide)) h
    · next hq =>
      split at h
      · next hd => exact isFault_of_scanNumber hd (hrest (ne_of_isDigit hd (by decide)).symm) h
      · next hd =>
        split at h
        · cases h
        · next ha =>
          obtain ⟨rfl, hfault⟩ :=
            isFault_of_scanSymbol hcs hq (by simpa using hd) (by simpa using ha) hb hp h
          exact ⟨[], rfl, hfault⟩

end Scanning

/-! The cut before a fault. -/

/-- No number without a fraction stands right before a point. -/
def NoBarePoint (before cs : List Char) (ts : List Token) : Prop :=
  ∀ us t r, us ++ [t] <+: ts → Munches before cs (us ++ [t]) ('.' :: r) → t.kind = .number →
    ¬IsDigits t.text.toList

/-- The text is cut into the lexemes of these tokens, and a fault stands behind them and trivia. -/
def BreaksOff (before cs : List Char) (ts : List Token) (e : LexError) : Prop :=
  ∃ p tr r lead, cs = p ++ tr ++ r ∧ Munches before cs ts (tr ++ r) ∧
    LongestPrefix IsTrivia tr (tr ++ r) ∧ NoBarePoint before cs ts ∧ IsFault r e.fault lead ∧
      e.line = 1 + (before ++ p ++ tr ++ lead).count '\n'

section Cutting
variable {before cs tr lx rest r text : List Char} {kind : Kind} {t : Token} {ts : List Token}
  {e : LexError}

/-- The first piece of a cut is the only one that can stand there. -/
theorem Munches.tail (htr : LongestPrefix IsTrivia tr (tr ++ (lx ++ rest)))
    (hlx : LongestPrefix Lexical lx (lx ++ rest))
    (h : Munches before (tr ++ (lx ++ rest)) (t :: ts) r) :
    Munches (before ++ tr ++ lx) rest ts r := by
  generalize hcs : tr ++ (lx ++ rest) = cs at h
  generalize hus : t :: ts = us at h
  cases h with
  | nil => cases hus
  | @cons before tr' lx' rest' r text kind us htr' hlx' hlexeme htail =>
    obtain ⟨-, rfl⟩ := List.cons.inj hus
    rw [hcs] at htr
    obtain rfl := htr.unique htr'
    rw [List.append_cancel_left hcs] at hlx
    obtain rfl := hlx.unique hlx'
    obtain rfl := List.append_cancel_left (List.append_cancel_left hcs)
    exact htail

/-- Digits are a number, and every number is its own text. -/
theorem IsLexeme.isDigits_iff (h : IsLexeme lx kind text) :
    IsDigits lx ↔ kind = .number ∧ IsDigits text := by
  have hleading {c : Char} {cs : List Char} (hc : c.isDigit = false) : ¬IsDigits (c :: cs) := by
    rintro ⟨-, hdigits⟩
    simp [hc] at hdigits
  cases h with
  | symbol hs =>
    obtain ⟨c, hcs, -, -, hc, -⟩ := hs.exists_char
    have hdigits : ¬IsDigits lx := by
      rcases hcs with ⟨rfl, -⟩ | ⟨rfl, -⟩ <;> exact hleading hc
    exact ⟨fun h => absurd h hdigits, fun h => absurd h.2 hdigits⟩
  | number hn => exact ⟨fun h => ⟨rfl, h⟩, And.right⟩
  | word hc _ =>
    have hc := isDigit_eq_false_of_isAlpha hc
    exact ⟨fun h => absurd h (hleading hc), fun h => absurd h.2 (hleading hc)⟩
  | string => exact ⟨fun h => absurd h (hleading (by decide)), fun h => nomatch h.1⟩

/-- The condition on a cut, piece by piece. -/
theorem noBarePoint_cons_iff (htr : LongestPrefix IsTrivia tr (tr ++ (lx ++ rest)))
    (hlongest : LongestPrefix Lexical lx (lx ++ rest)) (hlx : IsLexeme lx kind text)
    (ht : t = ⟨kind, String.ofList text, 1 + (before ++ tr).count '\n'⟩) :
    NoBarePoint before (tr ++ (lx ++ rest)) (t :: ts) ↔
      (IsDigits lx → rest.head? ≠ some '.') ∧ NoBarePoint (before ++ tr ++ lx) rest ts := by
  have hcons {us : List Token} {s : List Char} (h : Munches (before ++ tr ++ lx) rest us s) :
      Munches before (tr ++ (lx ++ rest)) (t :: us) s := ht ▸ .cons htr hlongest hlx h
  constructor
  · refine fun h => ⟨fun hdigits hhead => ?_, fun us u s hprefix hus => ?_⟩
    · obtain ⟨s, rfl⟩ := List.head?_eq_some_iff.mp hhead
      obtain ⟨rfl, htext⟩ := hlx.isDigits_iff.mp hdigits
      refine h [] t s ⟨ts, rfl⟩ (hcons (.nil _ _)) (by rw [ht]) ?_
      rwa [ht, String.toList_ofList]
    · exact h (t :: us) u s (List.cons_prefix_cons.mpr ⟨rfl, hprefix⟩) (hcons hus)
  · rintro ⟨hbare, htail⟩ us u s hprefix hus hkind htext
    cases us with
    | nil =>
      obtain ⟨rfl, -⟩ := List.cons_prefix_cons.mp hprefix
      subst ht
      rw [String.toList_ofList] at htext
      cases hus.tail htr hlongest
      exact hbare (hlx.isDigits_iff.mpr ⟨hkind, htext⟩) rfl
    | cons v us =>
      obtain ⟨rfl, htailPrefix⟩ := List.cons_prefix_cons.mp hprefix
      exact htail us u s htailPrefix (hus.tail htr hlongest) hkind htext

theorem scan_of_next {line : Nat} {cur : Cursor} (h : Cursor.next ⟨cs, line⟩ = (.ok t, cur)) :
    ∃ x, scan (skipTrivia cs) = (.ok x, cur.rest) := by
  unfold Cursor.next at h
  split at h
  · next x rest hscan =>
    cases h
    exact ⟨x, hscan⟩
  · cases h

/-- A number that is read is not followed by a point, unless it has a fraction. -/
theorem head?_ne_point_of_scan {x : Lexeme} (h : scan (lx ++ rest) = (.ok x, rest))
    (hdigits : IsDigits lx) : rest.head? ≠ some '.' := by
  intro hhead
  obtain ⟨s, rfl⟩ := List.head?_eq_some_iff.mp hhead
  have hdrop : (lx ++ '.' :: s).dropWhile Char.isDigit = '.' :: s :=
    dropWhile_append_cons hdigits.2 (by decide)
  have hscan : scanNumber (lx ++ '.' :: s) = (.ok x, '.' :: s) := by
    obtain ⟨c, ds, rfl, hc⟩ := hdigits.exists_cons
    simpa [scan, hc, ne_of_isDigit hc (d := '"') (by decide)] using h
  simp only [scanNumber, hdrop] at hscan
  split at hscan
  · cases hscan
  · have hlength := (List.dropWhile_sublist Char.isDigit (l := s)).length_le
    rw [(Prod.mk.inj hscan).2, List.length_cons] at hlength
    omega

/-- What is before the wrong character is on the line where the fault begins. -/
theorem IsFault.newline_not_mem {fault : LexFault} {lead : List Char} (h : IsFault cs fault lead) :
    '\n' ∉ lead := by
  intro hmem
  cases h with
  | string hbody =>
    have hmem := List.mem_of_ne_of_mem (by decide) hmem
    exact absurd (hbody _ hmem).2.1 (by decide)
  | number hds => exact absurd (hds.2 _ hmem) (by decide)
  | notEqual | unknown => cases hmem

theorem isFault_of_next {cur rest : Cursor} (hcur : Ended cur.rest)
    (h : cur.next = (.error e, rest)) : ∃ tr r lead, cur.rest = tr ++ r ∧
      LongestPrefix IsTrivia tr (tr ++ r) ∧ IsFault r e.fault lead ∧ r = lead ++ rest.rest ∧
        e.line = cur.line := by
  obtain ⟨tr, hsplit, htr⟩ := longest_skipTrivia cur.rest
  have hmem := newline_mem_skipTrivia (Cursor.newline_mem_of_next hcur h nofun)
  unfold Cursor.next at h
  split at h
  · cases h
  · next fault rest hscan =>
    cases h
    obtain ⟨lead, hlead, hfault⟩ := isFault_of_scan hmem (head?_skipTrivia _) hscan
    exact ⟨tr, _, lead, hsplit, hsplit ▸ htr, hfault, hlead, rfl⟩

theorem breaksOff_of_drain {cur : Cursor} (hline : cur.line = 1 + before.count '\n')
    (hcur : Ended cur.rest) (h : cur.drain = (ts, some e)) : BreaksOff before cur.rest ts e := by
  fun_induction Cursor.drain cur generalizing ts before with
  | case1 cur e' rest hnext =>
    obtain ⟨rfl, he⟩ := Prod.mk.inj h
    obtain rfl := Option.some.inj he
    obtain ⟨tr, r, lead, hsplit, htr, hfault, -, he⟩ := isFault_of_next hcur hnext
    have hbare : NoBarePoint before cur.rest [] := fun us t r hprefix => by simp at hprefix
    refine ⟨[], tr, r, lead, hsplit, hsplit ▸ .nil _ _, htr, hbare, hfault, ?_⟩
    rw [List.append_nil, List.count_append, htr.mem.count_newline,
      List.count_eq_zero_of_not_mem hfault.newline_not_mem]
    exact he.trans hline
  | case2 => simp at h
  | case3 cur t rest hnext ht _ us e' hrest ih =>
    obtain ⟨rfl, rfl⟩ := Prod.mk.inj h
    obtain ⟨tr, lx, text, hsplit, htr, hlongest, hlx, htoken, hrestLine⟩ := longest_of_next hnext ht
    have hrestLine : rest.line = 1 + (before ++ tr ++ lx).count '\n' := by
      rw [hrestLine, hline, count_newline_piece htr.mem hlx]
      split <;> rfl
    obtain ⟨p, tr', r, lead, hp, hus, htr', hbare, hfault, he⟩ :=
      ih hrestLine (Cursor.ended_of_next hcur hnext ht) hrest
    rw [hline, ← htr.mem.count_newline before] at htoken
    have hpoint : IsDigits lx → rest.rest.head? ≠ some '.' := by
      obtain ⟨x, hscan⟩ := scan_of_next hnext
      rw [hsplit, skipTrivia_of_longest (hsplit ▸ htr)] at hscan
      exact head?_ne_point_of_scan hscan
    rw [hsplit] at htr ⊢
    refine ⟨tr ++ lx ++ p, tr', r, lead, ?_, ?_, htr', ?_, hfault, ?_⟩
    · rw [hp]
      simp only [List.append_assoc]
    · exact htoken ▸ .cons htr hlongest hlx hus
    · exact (noBarePoint_cons_iff htr hlongest hlx htoken).mpr ⟨hpoint, hbare⟩
    · rw [he]
      simp only [List.append_assoc]

/-- A cut is what is scanned, whatever stands behind it. -/
theorem Munches.drain_eq (h : Munches before cs ts r) (hbare : NoBarePoint before cs ts) :
    ∃ p, cs = p ++ r ∧ Cursor.drain ⟨cs, 1 + before.count '\n'⟩ =
      (ts ++ (Cursor.drain ⟨r, 1 + (before ++ p).count '\n'⟩).1,
        (Cursor.drain ⟨r, 1 + (before ++ p).count '\n'⟩).2) := by
  induction h with
  | nil before r => exact ⟨[], rfl, by rw [List.append_nil]; rfl⟩
  | @cons before tr lx rest r text kind ts htr hlongest hlx _ ih =>
    obtain ⟨hpoint, hbare⟩ := (noBarePoint_cons_iff htr hlongest hlx rfl).mp hbare
    obtain ⟨p, rfl, hdrain⟩ := ih hbare
    refine ⟨tr ++ lx ++ p, by simp only [List.append_assoc], ?_⟩
    rw [Cursor.drain_of_ne_eof (next_of_longest before htr hlongest hlx hpoint) hlx.valid.1.ne_eof,
      hdrain]
    simp only [List.append_assoc, List.cons_append]

theorem drain_of_breaksOff (h : BreaksOff before cs ts e) :
    Cursor.drain ⟨cs, 1 + before.count '\n'⟩ = (ts, some e) := by
  obtain ⟨p, tr, r, lead, rfl, hts, htr, hbare, hfault, he⟩ := h
  obtain ⟨p', hsplit, hdrain⟩ := hts.drain_eq hbare
  rw [List.append_assoc] at hsplit
  obtain rfl := List.append_cancel_right hsplit
  obtain ⟨rest, -, hscan⟩ := hfault.scan_eq
  have hline : e.line = 1 + (before ++ p).count '\n' := by
    rw [he, List.count_append, htr.mem.count_newline,
      List.count_eq_zero_of_not_mem hfault.newline_not_mem]
    rfl
  have hnext : Cursor.next ⟨tr ++ r, 1 + (before ++ p).count '\n'⟩ =
      (.error e, ⟨rest, 1 + (before ++ p).count '\n'⟩) := by
    simp only [Cursor.next, skipTrivia_of_longest htr, hscan, ← hline]
  rw [hdrain, Cursor.drain_of_error hnext, List.append_nil]

end Cutting

/-! No string is left open, since the text ends with a newline. -/

section Reading
variable {source : String} {cur rest : Cursor} {e : LexError}

theorem Cursor.ended_next (hcur : Ended cur.rest) : Ended cur.next.2.rest := by
  rcases hnext : cur.next with ⟨e | t, rest⟩
  · obtain ⟨tr, r, lead, hsplit, -, -, rfl, -⟩ := isFault_of_next hcur hnext
    rw [hsplit] at hcur
    exact hcur.of_append.of_append
  · by_cases ht : t.kind = .eof
    · simp [rest_of_next_eof hnext ht, Ended]
    · exact ended_of_next hcur hnext ht

theorem Cursor.ne_unterminatedString_of_next (hcur : Ended cur.rest)
    (h : cur.next = (.error e, rest)) : e.fault ≠ .unterminatedString := by
  obtain ⟨tr, r, lead, -, -, hfault, -⟩ := isFault_of_next hcur h
  intro he
  rw [he] at hfault
  cases hfault

/-- However often the scanner is called, also after a fault. -/
theorem Cursor.ne_unterminatedString_of_mem_steps {n : Nat} (hcur : Ended cur.rest)
    (h : .error e ∈ cur.steps n) : e.fault ≠ .unterminatedString := by
  induction n generalizing cur with
  | zero => cases h
  | succ n ih =>
    rcases List.mem_cons.mp h with h | h
    · exact ne_unterminatedString_of_next hcur (Prod.ext h.symm rfl)
    · exact ih (ended_next hcur) h

theorem tokenize_of_compile_error (h : compile source = .error (.lex e)) :
    tokenize source = .error e := by
  cases hts : tokenize source with
  | ok ts =>
    rw [compile_of_tokenize hts] at h
    cases hthrough : Compilation.start.through ts <;> rw [hthrough] at h <;> cases h
  | error e' =>
    obtain ⟨ts, hdrain⟩ := drain_of_tokenize_error hts
    rw [compile_of_drain_error hdrain] at h
    have h := Except.error.inj h
    unfold Compilation.firstError at h
    split at h
    · split at h
      · cases h
      · rw [CompileError.lex.inj h]
    · rw [CompileError.lex.inj h]

end Reading

/-- A text is refused exactly if it can be cut into lexemes and trivia up to a fault, and for that
fault, on the line of the character that is wrong. No two faults stand at one place. A string that
is left open is never reported, neither by the scanner, however often it is called, nor by the
compiler. -/
theorem tokenize_eq_error_iff (source : String) (e : LexError) :
    (tokenize source = .error e ↔ ∃ ts, BreaksOff [] (source.toList ++ ['\n']) ts e) ∧
    (∀ r fault lead, IsFault r fault lead → r ≠ [] ∧
      ∀ fault' lead', IsFault r fault' lead' → fault' = fault ∧ lead' = lead) ∧
    (e.fault = .unterminatedString → tokenize source ≠ .error e ∧
      (∀ n, .error e ∉ (Cursor.start source).steps n) ∧ compile source ≠ .error (.lex e)) := by
  have hended : Ended (Cursor.start source).rest := ended_concat source.toList
  have hbreaks (h : tokenize source = .error e) :
      ∃ ts, BreaksOff [] (source.toList ++ ['\n']) ts e := by
    obtain ⟨ts, hdrain⟩ := drain_of_tokenize_error h
    exact ⟨ts, breaksOff_of_drain rfl hended hdrain⟩
  refine ⟨⟨hbreaks, ?_⟩, fun r fault lead h => ⟨?_, fun fault' lead' h' => h.unique h'⟩, fun he => ?_⟩
  · rintro ⟨ts, hts⟩
    have hdrain : (Cursor.start source).drain = (ts, some e) := drain_of_breaksOff hts
    rw [tokenize, hdrain]
  · rintro rfl
    obtain ⟨rest, -, hscan⟩ := h.scan_eq
    cases hscan
  · have hnever (h : tokenize source = .error e) : False := by
      obtain ⟨ts, p, tr, r, lead, -, -, -, -, hfault, -⟩ := hbreaks h
      rw [he] at hfault
      cases hfault
    exact ⟨hnever, fun n h => Cursor.ne_unterminatedString_of_mem_steps hended h he,
      fun h => hnever (tokenize_of_compile_error h)⟩

/-- The percent sign is met before the end of the line, where the string would be left open. -/
theorem tokenize_eq_error_iff_percent :
    tokenize "x = 1 # !\nPRINT \"50%" = .error ⟨2, .illegalStringChar '%'⟩ ∧
      (∃ ts, BreaksOff [] ("x = 1 # !\nPRINT \"50%".toList ++ ['\n']) ts
        ⟨2, .illegalStringChar '%'⟩) ∧
      IsFault "\"50%\n".toList (.illegalStringChar '%') "\"50".toList ∧
        (∀ fault lead, IsFault "\"50%\n".toList fault lead →
          fault = .illegalStringChar '%' ∧ lead = "\"50".toList) ∧
          tokenize "x = 1 # !\nPRINT \"50%" ≠ .error ⟨2, .unterminatedString⟩ ∧
            (∀ n, .error ⟨2, .unterminatedString⟩ ∉
              (Cursor.start "x = 1 # !\nPRINT \"50%").steps n) ∧
              compile "x = 1 # !\nPRINT \"50%" ≠ .error (.lex ⟨2, .unterminatedString⟩) := by
  have htokens : tokenize "x = 1 # !\nPRINT \"50%" = .error ⟨2, .illegalStringChar '%'⟩ := by cbv
  have hfault : IsFault "\"50%\n".toList (.illegalStringChar '%') "\"50".toList :=
    @IsFault.string ['5', '0'] ['\n'] '%' (by simp [isControl]) (.inr (.inr rfl))
  exact ⟨htokens, (tokenize_eq_error_iff _ _).1.mp htokens, hfault,
    ((tokenize_eq_error_iff "" ⟨1, .malformedNumber⟩).2.1 _ _ _ hfault).2,
    (tokenize_eq_error_iff _ ⟨2, .unterminatedString⟩).2.2 rfl⟩

end TeenyToC
