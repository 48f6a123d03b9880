import Mathlib.Data.List.TakeWhile
import TeenyToC.Proofs.Tokenization

/-! The lexical grammar of Teeny. It says which characters are a lexeme, of which kind and with
which text, and which are trivia; the longest prefix rule (`LongestPrefix`) chooses among the
lexemes, or the trivia, that a text begins with. The scanner makes that choice: what it skips is the
longest trivia (`longest_skipTrivia`), and what it reads is the longest lexeme (`longest_of_scan`,
`scan_of_longest`), but for a number without a fraction right before a point. -/

namespace TeenyToC

inductive IsSymbol : List Char → Kind → Prop where
  | newline : IsSymbol ['\n'] .newline
  | equals : IsSymbol ['='] .equals
  | additive (op : Additive) : IsSymbol op.symbol.toList (.additive op)
  | multiplicative (op : Multiplicative) : IsSymbol op.symbol.toList (.multiplicative op)
  | comparison (op : Comparison) : IsSymbol op.symbol.toList (.comparison op)

def IsDigits (cs : List Char) : Prop := cs ≠ [] ∧ ∀ c ∈ cs, c.isDigit

inductive IsNumber : List Char → Prop where
  | whole {ds : List Char} : IsDigits ds → IsNumber ds
  | decimal {ds fs : List Char} : IsDigits ds → IsDigits fs → IsNumber (ds ++ '.' :: fs)

/-- The characters of a lexeme in a program, its kind and its text. -/
inductive IsLexeme : List Char → Kind → List Char → Prop where
  | symbol {cs : List Char} {kind : Kind} : IsSymbol cs kind → IsLexeme cs kind cs
  | number {cs : List Char} : IsNumber cs → IsLexeme cs .number cs
  | word {c : Char} {cs : List Char} : c.isAlpha → (∀ d ∈ cs, d.isAlphanum) →
      IsLexeme (c :: cs) (.ofWord (c :: cs)) (c :: cs)
  | string {cs : List Char} : (∀ c ∈ cs, c ≠ '"' ∧ isControl c = false ∧ c ≠ '\\' ∧ c ≠ '%') →
      IsLexeme ('"' :: (cs ++ ['"'])) .string cs

def Lexical (cs : List Char) : Prop := ∃ kind text, IsLexeme cs kind text

/-- Blanks, and perhaps a comment, which does not reach into another line. -/
inductive IsTrivia : List Char → Prop where
  | blanks {bs : List Char} : (∀ c ∈ bs, c = ' ' ∨ c = '\t' ∨ c = '\r') → IsTrivia bs
  | comment {bs cs : List Char} : (∀ c ∈ bs, c = ' ' ∨ c = '\t' ∨ c = '\r') → '\n' ∉ cs →
      IsTrivia (bs ++ '#' :: cs)

structure LongestPrefix (P : List Char → Prop) (p cs : List Char) : Prop where
  mem : P p
  isPrefix : p <+: cs
  longest : ∀ q, P q → q <+: cs → q.length ≤ p.length

theorem LongestPrefix.unique {P : List Char → Prop} {p q cs : List Char} (hp : LongestPrefix P p cs)
    (hq : LongestPrefix P q cs) : p = q := by
  have hle := hq.longest p hp.mem hp.isPrefix
  have hge := hp.longest q hq.mem hq.isPrefix
  exact (List.prefix_of_prefix_length_le hp.isPrefix hq.isPrefix hle).eq_of_length
    (Nat.le_antisymm hle hge)

section Spans
variable {P : Char → Bool} {q xs cs r : List Char} {c : Char}

theorem length_le_takeWhile (hq : ∀ c ∈ q, P c) (h : q <+: cs) :
    q.length ≤ (cs.takeWhile P).length := by
  obtain ⟨s, rfl⟩ := h
  rw [List.takeWhile_append_of_pos hq, List.length_append]
  exact Nat.le_add_right _ _

/-- A text is cut where its characters leave the class. -/
theorem takeWhile_append_cons (hxs : ∀ c ∈ xs, P c) (hc : P c = false) :
    (xs ++ c :: r).takeWhile P = xs := by
  rw [List.takeWhile_append_of_pos hxs, List.takeWhile_cons_of_neg (by simp [hc]), List.append_nil]

theorem dropWhile_append_cons (hxs : ∀ c ∈ xs, P c) (hc : P c = false) :
    (xs ++ c :: r).dropWhile P = c :: r := by
  rw [List.dropWhile_append_of_pos hxs, List.dropWhile_cons_of_neg (by simp [hc])]

end Spans

theorem isBlank_iff {c : Char} : isBlank c ↔ c = ' ' ∨ c = '\t' ∨ c = '\r' := by
  simp [isBlank, or_assoc]

theorem longest_skipTrivia (cs : List Char) :
    ∃ tr, cs = tr ++ skipTrivia cs ∧ LongestPrefix IsTrivia tr cs := by
  have hblanks : ∀ c ∈ cs.takeWhile isBlank, c = ' ' ∨ c = '\t' ∨ c = '\r' := fun c hc =>
    isBlank_iff.mp (List.mem_takeWhile_imp hc)
  have hsplit : cs.takeWhile isBlank ++ cs.dropWhile isBlank = cs := List.takeWhile_append_dropWhile
  have hcut {bs s : List Char} (hbs : ∀ c ∈ bs, c = ' ' ∨ c = '\t' ∨ c = '\r')
      (h : bs ++ '#' :: s = cs) : cs.takeWhile isBlank = bs ∧ cs.dropWhile isBlank = '#' :: s := by
    have hbs' : ∀ c ∈ bs, isBlank c := fun c hc => isBlank_iff.mpr (hbs c hc)
    rw [← h]
    exact ⟨takeWhile_append_cons hbs' (by decide), dropWhile_append_cons hbs' (by decide)⟩
  -- Blanks end at one place only, so other trivia with a comment has its `#` there too.
  unfold skipTrivia
  split
  · next r hr =>
    have hcomment : r.takeWhile (· ≠ '\n') ++ r.dropWhile (· ≠ '\n') = r :=
      List.takeWhile_append_dropWhile
    have hline : '\n' ∉ r.takeWhile (· ≠ '\n') := fun h => by
      simpa using List.mem_takeWhile_imp h
    have hcs : cs = (cs.takeWhile isBlank ++ '#' :: r.takeWhile (· ≠ '\n')) ++
        r.dropWhile (· ≠ '\n') := by
      rw [List.append_assoc, List.cons_append, hcomment, ← hr, hsplit]
    refine ⟨_, hcs, .comment hblanks hline, ⟨_, hcs.symm⟩, fun q hq hprefix => ?_⟩
    rw [List.length_append, List.length_cons]
    cases hq with
    | blanks hbs =>
      have hle := length_le_takeWhile (P := isBlank) (fun c hc => isBlank_iff.mpr (hbs c hc)) hprefix
      omega
    | @comment bs ds hbs hds =>
      obtain ⟨s, hs⟩ := hprefix
      rw [List.append_assoc, List.cons_append] at hs
      obtain ⟨htake, hdrop⟩ := hcut hbs hs
      obtain rfl : r = ds ++ s := by simpa [hr] using hdrop
      have hall : ∀ c ∈ ds, decide (c ≠ '\n') := fun c hc =>
        decide_eq_true (ne_of_mem_of_not_mem hc hds)
      have hle := length_le_takeWhile hall (List.prefix_append ds s)
      rw [htake, List.length_append, List.length_cons]
      omega
  · next hr =>
    refine ⟨_, hsplit.symm, .blanks hblanks, ⟨_, hsplit⟩, fun q hq hprefix => ?_⟩
    cases hq with
    | blanks hbs => exact length_le_takeWhile (fun c hc => isBlank_iff.mpr (hbs c hc)) hprefix
    | @comment bs ds hbs hds =>
      obtain ⟨s, hs⟩ := hprefix
      rw [List.append_assoc, List.cons_append] at hs
      exact absurd (hcut hbs hs).2 (hr _)

theorem skipTrivia_of_longest {tr r : List Char} (h : LongestPrefix IsTrivia tr (tr ++ r)) :
    skipTrivia (tr ++ r) = r := by
  obtain ⟨tr', hsplit, h'⟩ := longest_skipTrivia (tr ++ r)
  obtain rfl := h'.unique h
  exact (List.append_cancel_left hsplit).symm

/-- What is left after trivia begins neither with a blank nor with a comment. -/
theorem head?_skipTrivia (cs : List Char) :
    ∀ c ∈ (skipTrivia cs).head?, isBlank c = false ∧ c ≠ '#' := by
  have hhead {P : Char → Bool} {cs : List Char} {c : Char} (hc : c ∈ (cs.dropWhile P).head?) :
      P c = false := by
    have hc : (cs.dropWhile P).head? = some c := hc
    have hstop := List.head?_dropWhile_not P cs
    simpa [hc] using hstop
  intro c hc
  unfold skipTrivia at hc
  split at hc
  · obtain rfl : c = '\n' := by simpa using hhead hc
    decide
  · next r hr =>
    refine ⟨hhead hc, ?_⟩
    rintro rfl
    obtain ⟨s, hs⟩ := List.head?_eq_some_iff.mp hc
    exact hr s hs

/-! The first character of a lexeme tells of which sort it is. -/

section Leading
variable {c : Char} {cs text : List Char} {kind : Kind}

/-- A symbol is one character, or one and an `=`. -/
theorem IsSymbol.exists_char (h : IsSymbol cs kind) :
    ∃ c, (cs = [c] ∧ Kind.ofChar? c = some kind ∨ cs = [c, '='] ∧ Kind.ofCharEquals? c = some kind) ∧
      c ≠ '"' ∧ c ≠ '.' ∧ c.isDigit = false ∧ c.isAlpha = false := by
  cases h with
  | newline => exact ⟨'\n', .inl ⟨rfl, rfl⟩, by decide⟩
  | equals => exact ⟨'=', .inl ⟨rfl, rfl⟩, by decide⟩
  | additive op | multiplicative op =>
    cases op <;> exact ⟨_, .inl ⟨rfl, rfl⟩, by decide⟩
  | comparison op =>
    cases op with
    | lt | gt => exact ⟨_, .inl ⟨rfl, rfl⟩, by decide⟩
    | _ => exact ⟨_, .inr ⟨rfl, rfl⟩, by decide⟩

theorem isSymbol_of_ofChar? (h : Kind.ofChar? c = some kind) : IsSymbol [c] kind := by
  unfold Kind.ofChar? at h
  repeat' split at h
  all_goals cases h
  all_goals subst_vars
  · exact .newline
  · exact .equals
  · exact .comparison .lt
  · exact .comparison .gt
  · exact .additive .plus
  · exact .additive .minus
  · exact .multiplicative .times
  · exact .multiplicative .divide

theorem isSymbol_of_ofCharEquals? (h : Kind.ofCharEquals? c = some kind) :
    IsSymbol [c, '='] kind := by
  unfold Kind.ofCharEquals? at h
  repeat' split at h
  all_goals cases h
  all_goals subst_vars
  · exact .comparison .eq
  · exact .comparison .ne
  · exact .comparison .le
  · exact .comparison .ge

theorem IsDigits.exists_cons (h : IsDigits cs) : ∃ c ds, cs = c :: ds ∧ c.isDigit := by
  obtain ⟨c, ds, rfl⟩ := List.exists_cons_of_ne_nil h.1
  exact ⟨c, ds, rfl, h.2 c List.mem_cons_self⟩

theorem IsNumber.exists_cons (h : IsNumber cs) : ∃ c ds, cs = c :: ds ∧ c.isDigit := by
  cases h with
  | whole hds => exact hds.exists_cons
  | decimal hds _ =>
    obtain ⟨c, ds, rfl, hc⟩ := hds.exists_cons
    exact ⟨c, _, rfl, hc⟩

theorem IsLexeme.of_quote (h : IsLexeme ('"' :: cs) kind text) :
    ∃ body, cs = body ++ ['"'] ∧
      ∀ c ∈ body, c ≠ '"' ∧ isControl c = false ∧ c ≠ '\\' ∧ c ≠ '%' := by
  cases h with
  | symbol hs =>
    obtain ⟨c, ⟨hcs, -⟩ | ⟨hcs, -⟩, hc, -⟩ := hs.exists_char <;>
      exact absurd (List.cons.inj hcs).1.symm hc
  | number hn =>
    obtain ⟨c, ds, hcs, hc⟩ := hn.exists_cons
    exact absurd (List.cons.inj hcs).1.symm (ne_of_isDigit hc (by decide))
  | word hc _ => exact absurd hc (by decide)
  | string hbody => exact ⟨_, rfl, hbody⟩

theorem IsLexeme.of_isDigit (hc : c.isDigit) (h : IsLexeme (c :: cs) kind text) :
    IsNumber (c :: cs) := by
  cases h with
  | symbol hs =>
    obtain ⟨d, ⟨hcs, -⟩ | ⟨hcs, -⟩, -, -, hd, -⟩ := hs.exists_char <;>
      exact absurd (List.cons.inj hcs).1 (ne_of_isDigit hc hd)
  | number hn => exact hn
  | word ha _ => simp [isDigit_eq_false_of_isAlpha ha] at hc
  | string => exact absurd hc (by decide)

theorem IsLexeme.of_isAlpha (hc : c.isAlpha) (h : IsLexeme (c :: cs) kind text) :
    ∀ d ∈ cs, d.isAlphanum := by
  cases h with
  | symbol hs =>
    obtain ⟨d, ⟨hcs, -⟩ | ⟨hcs, -⟩, -, -, -, hd⟩ := hs.exists_char <;>
      exact absurd (List.cons.inj hcs).1 (ne_of_isAlpha hc hd)
  | number hn =>
    obtain ⟨d, ds, hcs, hd⟩ := hn.exists_cons
    obtain rfl := (List.cons.inj hcs).1
    simp [isDigit_eq_false_of_isAlpha hc] at hd
  | word _ hcs => exact hcs
  | string => exact absurd hc (by decide)

theorem IsLexeme.isSymbol (hq : c ≠ '"') (hd : c.isDigit = false) (ha : c.isAlpha = false)
    (h : IsLexeme (c :: cs) kind text) : IsSymbol (c :: cs) kind := by
  cases h with
  | symbol hs => exact hs
  | number hn =>
    obtain ⟨d, ds, hcs, hd'⟩ := hn.exists_cons
    obtain rfl := (List.cons.inj hcs).1
    simp [hd] at hd'
  | word ha' _ => simp [ha] at ha'
  | string => exact absurd rfl hq

/-- No lexeme is empty or begins with a point. -/
theorem IsLexeme.exists_cons (h : IsLexeme cs kind text) : ∃ c ds, cs = c :: ds ∧ c ≠ '.' := by
  cases h with
  | symbol hs =>
    obtain ⟨c, ⟨rfl, -⟩ | ⟨rfl, -⟩, -, hc, -⟩ := hs.exists_char <;> exact ⟨c, _, rfl, hc⟩
  | number hn =>
    obtain ⟨c, ds, rfl, hc⟩ := hn.exists_cons
    exact ⟨c, ds, rfl, ne_of_isDigit hc (by decide)⟩
  | word hc _ => exact ⟨_, _, rfl, ne_of_isAlpha hc (by decide)⟩
  | string => exact ⟨_, _, rfl, by decide⟩

end Leading

/-! Each part of the scanner reads the longest lexeme of its sort. -/

/-- What is read is the longest lexeme that the text begins with. -/
def ReadsLongest (cs : List Char) (x : Lexeme) (r : List Char) : Prop :=
  ∃ lx, cs = lx ++ r ∧ IsLexeme lx x.kind x.text ∧ LongestPrefix Lexical lx cs

section Reading
variable {c : Char} {cs r lx : List Char} {x : Lexeme}

/-- It is enough to compare with the lexemes that begin with the same character. -/
theorem ReadsLongest.of_split (hsplit : c :: cs = lx ++ r) (hlx : IsLexeme lx x.kind x.text)
    (h : ∀ ds kind text, IsLexeme (c :: ds) kind text → c :: ds <+: c :: cs →
      (c :: ds).length ≤ lx.length) : ReadsLongest (c :: cs) x r := by
  refine ⟨lx, hsplit, hlx, ⟨_, _, hlx⟩, ⟨r, hsplit.symm⟩, ?_⟩
  rintro q ⟨kind, text, hq⟩ hprefix
  obtain ⟨d, ds, rfl, -⟩ := hq.exists_cons
  obtain ⟨rfl, -⟩ := List.cons_prefix_cons.mp hprefix
  exact h ds kind text hq hprefix

theorem isStringPart_iff : isStringPart c ↔ c ≠ '"' ∧ isControl c = false ∧ c ≠ '\\' ∧ c ≠ '%' := by
  simp [isStringPart, isIllegal, and_assoc]

theorem readsLongest_scanString (h : scanString cs = (.ok x, r)) :
    ReadsLongest ('"' :: cs) x r := by
  have hcut : cs.takeWhile isStringPart ++ cs.dropWhile isStringPart = cs :=
    List.takeWhile_append_dropWhile
  simp only [scanString] at h
  split at h
  · cases h
  · next c rest hdrop =>
    split at h
    · next hc =>
      cases h
      subst hc
      change cs.dropWhile isStringPart = _ at hdrop
      rw [hdrop] at hcut
      have hsplit : '"' :: cs = '"' :: (cs.takeWhile isStringPart ++ ['"']) ++ r := by
        simp [hcut]
      refine .of_split hsplit ?_ ?_
      · exact .string fun c hc => isStringPart_iff.mp (List.mem_takeWhile_imp hc)
      · intro ds kind text hds hprefix
        obtain ⟨body, rfl, hbody⟩ := hds.of_quote
        obtain ⟨s, rfl⟩ := (List.cons_prefix_cons.mp hprefix).2
        have hbody' : ∀ c ∈ body, isStringPart c := fun c hc => isStringPart_iff.mpr (hbody c hc)
        rw [List.append_assoc, List.singleton_append, takeWhile_append_cons hbody' (by decide)]
    · cases h

/-- A number ends with the digits, or with those after the point that follows them. -/
theorem IsNumber.length_le {q : List Char} (hq : IsNumber q) (h : q <+: cs) :
    q.length ≤ (cs.takeWhile Char.isDigit).length ∨
      ∃ s, cs.dropWhile Char.isDigit = '.' :: s ∧ s.takeWhile Char.isDigit ≠ [] ∧
        q.length ≤ (cs.takeWhile Char.isDigit ++ '.' :: s.takeWhile Char.isDigit).length := by
  cases hq with
  | whole hds => exact .inl (length_le_takeWhile hds.2 h)
  | @decimal ds fs hds hfs =>
    obtain ⟨s, rfl⟩ := h
    have hle := length_le_takeWhile hfs.2 (List.prefix_append fs s)
    have hpos := List.length_pos_iff.mpr hfs.1
    rw [List.append_assoc, List.cons_append, takeWhile_append_cons hds.2 (by decide),
      dropWhile_append_cons hds.2 (by decide)]
    refine .inr ⟨fs ++ s, rfl, List.length_pos_iff.mp (by omega), ?_⟩
    simp only [List.length_append, List.length_cons]
    omega

theorem readsLongest_scanNumber (hc : c.isDigit) (h : scanNumber (c :: cs) = (.ok x, r)) :
    ReadsLongest (c :: cs) x r := by
  have hcut : (c :: cs).takeWhile Char.isDigit ++ (c :: cs).dropWhile Char.isDigit = c :: cs :=
    List.takeWhile_append_dropWhile
  have hwhole : IsDigits ((c :: cs).takeWhile Char.isDigit) :=
    ⟨by simp [hc], fun d hd => List.mem_takeWhile_imp hd⟩
  unfold scanNumber at h
  split at h
  · next s hdrop =>
    split at h
    · cases h
    · next hne =>
      cases h
      have hfraction : s.takeWhile Char.isDigit ++ s.dropWhile Char.isDigit = s :=
        List.takeWhile_append_dropWhile
      refine .of_split ?_
        (.number (.decimal hwhole ⟨hne, fun d hd => List.mem_takeWhile_imp hd⟩)) ?_
      · rw [List.append_assoc, List.cons_append, hfraction, ← hdrop, hcut]
      · intro ds kind text hds hprefix
        rcases (hds.of_isDigit hc).length_le hprefix with hle | ⟨s', hdrop', -, hle⟩
        · rw [List.length_append]
          omega
        · obtain rfl : s = s' := by simpa [hdrop] using hdrop'
          exact hle
  · next hdrop =>
    cases h
    refine .of_split hcut.symm (.number (.whole hwhole)) fun ds kind text hds hprefix => ?_
    rcases (hds.of_isDigit hc).length_le hprefix with hle | ⟨s, hdrop', -⟩
    · exact hle
    · exact absurd hdrop' (hdrop s)

theorem readsLongest_scanWord (hc : c.isAlpha) (h : scanWord (c :: cs) = (.ok x, r)) :
    ReadsLongest (c :: cs) x r := by
  have hc' : c.isAlphanum := by simp [Char.isAlphanum, hc]
  have hword : (c :: cs).takeWhile Char.isAlphanum = c :: cs.takeWhile Char.isAlphanum :=
    List.takeWhile_cons_of_pos hc'
  have hcut : (c :: cs).takeWhile Char.isAlphanum ++ (c :: cs).dropWhile Char.isAlphanum = c :: cs :=
    List.takeWhile_append_dropWhile
  cases h
  refine .of_split hcut.symm ?_ fun ds kind text hds hprefix => ?_
  · rw [hword]
    exact .word hc fun d hd => List.mem_takeWhile_imp hd
  · exact length_le_takeWhile (List.forall_mem_cons.mpr ⟨hc', hds.of_isAlpha hc⟩) hprefix

theorem readsLongest_scanSymbol (hq : c ≠ '"') (hd : c.isDigit = false) (ha : c.isAlpha = false)
    (h : scanSymbol c cs = (.ok x, r)) : ReadsLongest (c :: cs) x r := by
  unfold scanSymbol at h
  split at h
  · next k rest hk =>
    cases h
    refine .of_split rfl (.symbol (isSymbol_of_ofCharEquals? hk)) fun ds kind text hds _ => ?_
    obtain ⟨d, ⟨hcs, -⟩ | ⟨hcs, -⟩, -⟩ := (hds.isSymbol hq hd ha).exists_char <;> simp [hcs]
  · next hequals =>
    split at h
    · next k hk =>
      cases h
      refine .of_split rfl (.symbol (isSymbol_of_ofChar? hk)) fun ds kind text hds hprefix => ?_
      obtain ⟨d, ⟨hcs, -⟩ | ⟨hcs, hd'⟩, -⟩ := (hds.isSymbol hq hd ha).exists_char
      · simp [hcs]
      · -- The longer symbol would have been taken.
        obtain ⟨rfl, rfl⟩ := List.cons.inj hcs
        obtain ⟨s, rfl⟩ := (List.cons_prefix_cons.mp hprefix).2
        exact (hequals kind s hd' rfl).elim
    · split at h <;> cases h

theorem readsLongest_scan (h : scan cs = (.ok x, r)) (hx : x.kind ≠ .eof) :
    ReadsLongest cs x r := by
  cases cs with
  | nil =>
    obtain ⟨rfl, -⟩ : ⟨.eof, []⟩ = x ∧ [] = r := by simpa [scan] using h
    exact absurd rfl hx
  | cons c cs =>
    simp only [scan] at h
    split at h
    · next hq =>
      subst hq
      exact readsLongest_scanString h
    · next hq =>
      split at h
      · next hd => exact readsLongest_scanNumber hd h
      · next hd =>
        split at h
        · next ha => exact readsLongest_scanWord ha h
        · next ha => exact readsLongest_scanSymbol hq (by simpa using hd) (by simpa using ha) h

end Reading

/-! Conversely the longest lexeme is read. Only the point after a number without a fraction is in
the way: it makes the number malformed. -/

section
variable {cs r lx text : List Char} {kind : Kind}

theorem IsSymbol.valid (h : IsSymbol cs kind) :
    Word.Valid (kind, String.ofList cs) ∧ Word.spelling (kind, String.ofList cs) = cs := by
  cases h with
  | newline => exact ⟨⟨by decide, by decide⟩, rfl⟩
  | equals => exact ⟨⟨by decide, by decide⟩, rfl⟩
  | additive op | multiplicative op | comparison op =>
    exact ⟨⟨by simp, by simp [Kind.admits]⟩, String.toList_ofList⟩

theorem IsNumber.isNumeral (h : IsNumber cs) : isNumeral cs := by
  cases h with
  | whole hds => exact isNumeral_of_all hds.1 (List.all_eq_true.mpr hds.2)
  | decimal hds hfs =>
    exact isNumeral_append hds.1 (List.all_eq_true.mpr hds.2) hfs.1 (List.all_eq_true.mpr hfs.2)

theorem IsLexeme.valid (h : IsLexeme cs kind text) :
    Word.Valid (kind, String.ofList text) ∧ Word.spelling (kind, String.ofList text) = cs := by
  cases h with
  | symbol hs => exact hs.valid
  | number hn =>
    refine ⟨⟨by simp, ?_⟩, String.toList_ofList⟩
    simpa [Kind.admits] using hn.isNumeral
  | @word c ds hc hds =>
    have hname : isName (c :: ds) := by
      rw [isName, hc, List.all_eq_true.mpr hds]
      rfl
    have hstring : Kind.ofWord (c :: ds) ≠ .string := Kind.ofWord_ne (by simp) (by simp) _
    refine ⟨⟨Kind.ofWord_ne (by simp) (by simp) _, ?_⟩, ?_⟩
    · simpa using Kind.ofWord_admits hname
    · simp [Word.spelling, hstring]
  | string hbody =>
    refine ⟨⟨by simp, ?_⟩, by simp [Word.spelling]⟩
    simpa [Kind.admits] using fun c hc => isStringPart_iff.mpr (hbody c hc)

/-- The characters of a lexeme tell its kind and its text. -/
theorem IsLexeme.scan_eq (h : IsLexeme lx kind text) : scan lx = (.ok ⟨kind, text⟩, []) := by
  obtain ⟨hvalid, hspelling⟩ := h.valid
  have hscan := scan_spelling hvalid (ends_nil.endsAt _)
  rwa [hspelling, List.append_nil, String.toList_ofList] at hscan

theorem exists_scanSymbol {c : Char}
    (h : Kind.ofChar? c = some kind ∨ Kind.ofCharEquals? c = some kind ∧ r.head? = some '=') :
    ∃ x r', scanSymbol c r = (.ok x, r') := by
  unfold scanSymbol
  split
  · exact ⟨_, _, rfl⟩
  · next hequals =>
    rcases h with h | ⟨h, hr⟩
    · rw [h]
      exact ⟨_, _, rfl⟩
    · obtain ⟨s, rfl⟩ := List.head?_eq_some_iff.mp hr
      exact (hequals kind s h rfl).elim

/-- The digits in front are a number, so a longest number that is shorter than them has a point. -/
theorem exists_scanNumber (hn : IsNumber lx) (h : LongestPrefix Lexical lx (lx ++ r))
    (hr : IsDigits lx → r.head? ≠ some '.') : ∃ x r', scanNumber (lx ++ r) = (.ok x, r') := by
  unfold scanNumber
  split
  · next s hdrop =>
    have hcut : (lx ++ r).takeWhile Char.isDigit ++ '.' :: s = lx ++ r :=
      hdrop ▸ List.takeWhile_append_dropWhile
    split
    · next hnone =>
      rcases hn.length_le h.isPrefix with hle | ⟨s', hdrop', hne, -⟩
      · obtain ⟨c, ds, rfl, hc⟩ := hn.exists_cons
        have hdigits : IsDigits ((c :: ds ++ r).takeWhile Char.isDigit) :=
          ⟨by simp [hc], fun d hd => List.mem_takeWhile_imp hd⟩
        have hge := h.longest _ ⟨_, _, .number (.whole hdigits)⟩ ⟨_, hcut⟩
        obtain ⟨hwhole, rfl⟩ := List.append_inj hcut (Nat.le_antisymm hge hle)
        exact absurd rfl (hr (hwhole ▸ hdigits))
      · obtain rfl : s = s' := by simpa [hdrop] using hdrop'
        exact absurd hnone hne
    · exact ⟨_, _, rfl⟩
  · exact ⟨_, _, rfl⟩

theorem scan_of_longest (hlx : IsLexeme lx kind text) (h : LongestPrefix Lexical lx (lx ++ r))
    (hr : IsDigits lx → r.head? ≠ some '.') : scan (lx ++ r) = (.ok ⟨kind, text⟩, r) := by
  have hread : ∃ x r', scan (lx ++ r) = (.ok x, r') := by
    cases hlx with
    | symbol hs =>
      obtain ⟨c, ⟨rfl, hk⟩ | ⟨rfl, hk⟩, hq, -, hd, ha⟩ := hs.exists_char
      · simpa [scan, hq, hd, ha] using exists_scanSymbol (.inl hk)
      · simpa [scan, hq, hd, ha] using exists_scanSymbol (.inr ⟨hk, rfl⟩)
    | number hn =>
      have hnumber := exists_scanNumber hn h hr
      obtain ⟨c, ds, rfl, hc⟩ := hn.exists_cons
      simpa [scan, hc, ne_of_isDigit hc (d := '"') (by decide)] using hnumber
    | word hc _ =>
      simp [scan, scanWord, hc, isDigit_eq_false_of_isAlpha hc,
        ne_of_isAlpha hc (d := '"') (by decide)]
    | string hbody =>
      have hall : text.all isStringPart :=
        List.all_eq_true.mpr fun c hc => isStringPart_iff.mpr (hbody c hc)
      exact ⟨_, _, by simpa [scan] using scanString_of_all (r := r) hall⟩
  -- What is read is a longest lexeme as well, and there is only one.
  obtain ⟨⟨kind', text'⟩, r', hscan⟩ := hread
  obtain ⟨c, ds, rfl, -⟩ := hlx.exists_cons
  obtain ⟨lx', hsplit, hlx', hlongest⟩ := readsLongest_scan hscan (scan_ne_eof hscan)
  obtain rfl := h.unique hlongest
  obtain rfl := List.append_cancel_left hsplit
  obtain ⟨rfl, rfl⟩ : kind = kind' ∧ text = text' := by
    simpa using hlx.scan_eq.symm.trans hlx'.scan_eq
  exact hscan

end

end TeenyToC
