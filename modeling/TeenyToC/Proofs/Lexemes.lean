import TeenyToC.Scanner
import TeenyToC.Syntax

/-! The lexemes of Teeny, from both sides. `Kind.admits` says which texts a kind may have, and no
token of any program has another one. Conversely a word with an admitted text is scanned back from
its spelling, provided that the character after it cannot belong to it. `Lexes` carries both over
to sequences: the characters in front are scanned, one word after the other, as the words given. -/

namespace TeenyToC

/-- A letter, then letters and digits. -/
def isName : List Char → Bool
  | [] => false
  | c :: r => c.isAlpha && r.all Char.isAlphanum

/-- Digits, and perhaps a point with more digits. -/
def isNumeral (cs : List Char) : Bool :=
  !(cs.takeWhile Char.isDigit).isEmpty &&
    match cs.dropWhile Char.isDigit with
    | [] => true
    | c :: r => c = '.' && !r.isEmpty && r.all Char.isDigit

/-- What may stand between two quotes. -/
def isStringPart (c : Char) : Bool := c ≠ '"' && !isIllegal c

def Kind.admits : Kind → List Char → Bool
  | .eof, cs => cs = []
  | .newline, cs => cs = ['\n']
  | .number, cs => isNumeral cs
  | .ident, cs => isName cs && Keyword.ofSpelling? (String.ofList cs) = none
  | .string, cs => cs.all isStringPart
  | .keyword k, cs => cs = k.spelling.toList
  | .equals, cs => cs = ['=']
  | .additive op, cs => cs = op.symbol.toList
  | .multiplicative op, cs => cs = op.symbol.toList
  | .comparison op, cs => cs = op.symbol.toList

/-- A word that some program holds; the end of the text is none. -/
structure Word.Valid (w : Word) : Prop where
  ne_eof : w.1 ≠ .eof
  admits : w.1.admits w.2.toList

theorem isName_of_valid {name : String} (h : (nameWord name).Valid) : isName name.toList :=
  ((Bool.and_eq_true _ _).mp h.admits).1

theorem isNumeral_of_valid {digits : String} (h : Word.Valid (.number, digits)) :
    isNumeral digits.toList :=
  h.admits

/-- The characters of a word in a program. -/
def Word.spelling (w : Word) : List Char :=
  if w.1 = .string then '"' :: w.2.toList ++ ['"'] else w.2.toList

def Lexeme.word (x : Lexeme) : Word := (x.kind, String.ofList x.text)

/-- The next character belongs to no word, number or operator before it. -/
def Ends (r : List Char) : Prop := ∀ c ∈ r.head?, ¬c.isAlphanum ∧ c ≠ '.' ∧ c ≠ '='

theorem ends_nil : Ends [] := by
  intro c hc
  simp at hc

theorem ends_cons {c : Char} (r : List Char) (hc : c.isAlphanum = false) (hp : c ≠ '.')
    (he : c ≠ '=') : Ends (c :: r) := by
  intro d hd
  obtain rfl : c = d := by simpa using hd
  exact ⟨by simp [hc], hp, he⟩

/-- A lexeme of this kind does not go on with the next character. -/
def Kind.EndsAt (kind : Kind) (r : List Char) : Prop :=
  ∀ c ∈ r.head?, match kind with
    | .ident | .keyword _ => c.isAlphanum = false
    | .number => c.isDigit = false ∧ c ≠ '.'
    | .equals | .comparison .lt | .comparison .gt => c ≠ '='
    | _ => True

theorem Ends.endsAt {r : List Char} (h : Ends r) (kind : Kind) : kind.EndsAt r := by
  intro c hc
  obtain ⟨halnum, hpoint, hequals⟩ := h c hc
  have halnum : c.isAlphanum = false := by simpa using halnum
  have hdigit : c.isDigit = false := ((Bool.or_eq_false_iff).mp halnum).2
  split
  · exact halnum
  · exact halnum
  · exact ⟨hdigit, hpoint⟩
  · exact hequals
  · exact hequals
  · exact hequals
  · trivial

section Characters
variable {c : Char}

theorem isDigit_eq_false_of_isAlpha (h : c.isAlpha) : c.isDigit = false := by
  unfold Char.isAlpha Char.isUpper Char.isLower at h
  simp only [Char.isDigit, Bool.or_eq_true,
    Bool.and_eq_true, decide_eq_true_eq, ge_iff_le, UInt32.le_iff_toNat_le,
    Bool.and_eq_false_imp, decide_eq_false_iff_not] at h ⊢
  have h0 : ('0' : Char).val.toNat = 48 := rfl
  have h9 : ('9' : Char).val.toNat = 57 := rfl
  have hA : ('A' : Char).val.toNat = 65 := rfl
  have ha : ('a' : Char).val.toNat = 97 := rfl
  omega

theorem ne_of_isDigit {d : Char} (h : c.isDigit) (hd : d.isDigit = false) : c ≠ d := by
  rintro rfl
  simp [h] at hd

theorem ne_of_isAlpha {d : Char} (h : c.isAlpha) (hd : d.isAlpha = false) : c ≠ d := by
  rintro rfl
  simp [h] at hd

end Characters

section Scanning
variable {c : Char} {cs r : List Char}

theorem scanString_of_all (h : cs.all isStringPart) :
    scanString (cs ++ '"' :: r) = (.ok ⟨.string, cs⟩, r) := by
  have hall : ∀ d ∈ cs, (fun c => c ≠ '"' && !isIllegal c) d := by
    simpa [isStringPart] using h
  simp only [scanString, List.dropWhile_append_of_pos hall, List.takeWhile_append_of_pos hall]
  simp

theorem scanWord_of_all (h : cs.all Char.isAlphanum) (hr : Kind.ident.EndsAt r) :
    scanWord (cs ++ r) = (.ok ⟨.ofWord cs, cs⟩, r) := by
  have hall : ∀ d ∈ cs, d.isAlphanum := by simpa using h
  simp only [scanWord, List.dropWhile_append_of_pos hall, List.takeWhile_append_of_pos hall]
  cases r with
  | nil => simp
  | cons c r =>
    have hc : c.isAlphanum = false := hr c rfl
    simp [hc]

theorem scanNumber_of_isNumeral (h : isNumeral cs) (hr : Kind.number.EndsAt r) :
    scanNumber (cs ++ r) = (.ok ⟨.number, cs⟩, r) := by
  have hdigits : ∀ d ∈ cs.takeWhile Char.isDigit, d.isDigit :=
    List.all_eq_true.mp List.all_takeWhile
  have hsplit : cs ++ r = cs.takeWhile Char.isDigit ++ (cs.dropWhile Char.isDigit ++ r) := by
    rw [← List.append_assoc, List.takeWhile_append_dropWhile]
  have hstop : ∀ d ∈ r.head?, d.isDigit = false := fun d hd => (hr d hd).1
  have hr_take : r.takeWhile Char.isDigit = [] := by
    cases r <;> simp_all
  have hr_drop : r.dropWhile Char.isDigit = r := by
    cases r <;> simp_all
  rw [hsplit]
  simp only [scanNumber, List.dropWhile_append_of_pos hdigits, List.takeWhile_append_of_pos hdigits]
  simp only [isNumeral, Bool.and_eq_true] at h
  cases hfrac : cs.dropWhile Char.isDigit with
  | nil =>
    have hwhole : cs.takeWhile Char.isDigit = cs := by
      simpa [hfrac] using List.takeWhile_append_dropWhile (p := Char.isDigit) (l := cs)
    rw [List.nil_append, hr_drop, hr_take, List.append_nil, hwhole]
    split
    · next s => exact absurd rfl (hr '.' rfl).2
    · rfl
  | cons c f =>
    simp only [hfrac, Bool.and_eq_true, decide_eq_true_eq, Bool.not_eq_true'] at h
    obtain ⟨-, ⟨rfl, hne⟩, hf⟩ := h
    have hf' : ∀ d ∈ f, d.isDigit := by simpa using hf
    have hwhole : cs.takeWhile Char.isDigit ++ '.' :: f = cs := by
      simpa [hfrac] using List.takeWhile_append_dropWhile (p := Char.isDigit) (l := cs)
    have hnonempty : f ≠ [] := by simpa using hne
    simp [List.takeWhile_append_of_pos hf', List.dropWhile_append_of_pos hf', hr_take, hr_drop,
      hnonempty, hwhole]

end Scanning

theorem isDigit_of_isNumeral {c : Char} {cs : List Char} (h : isNumeral (c :: cs)) : c.isDigit := by
  cases hc : c.isDigit with
  | true => rfl
  | false => simp [isNumeral, hc] at h

theorem Kind.ofWord_spelling (k : Keyword) : Kind.ofWord k.spelling.toList = .keyword k := by
  simp [Kind.ofWord, Keyword.ofSpelling?_spelling]

theorem Kind.ofWord_eq (cs : List Char) : ofWord cs = .ident ∨ ∃ k, ofWord cs = .keyword k := by
  unfold Kind.ofWord
  split
  · exact .inr ⟨_, rfl⟩
  · exact .inl rfl

theorem Kind.ofWord_ne {kind : Kind} (hname : kind ≠ .ident) (hkeyword : ∀ k, kind ≠ .keyword k)
    (cs : List Char) : ofWord cs ≠ kind := by
  rcases ofWord_eq cs with h | ⟨k, h⟩
  · exact h ▸ hname.symm
  · exact h ▸ (hkeyword k).symm

theorem isName_spelling (k : Keyword) : isName k.spelling.toList := by
  rcases k with _ | _ | _ | _ | _ | (_ | _) | (_ | _) | (_ | _) <;> decide

theorem scan_of_isName {cs r : List Char} (h : isName cs) (hr : Kind.ident.EndsAt r) :
    scan (cs ++ r) = (.ok ⟨.ofWord cs, cs⟩, r) := by
  cases cs with
  | nil => simp [isName] at h
  | cons c cs =>
    simp only [isName, Bool.and_eq_true] at h
    have hq : c ≠ '"' := ne_of_isAlpha h.1 (by decide)
    have hall : (c :: cs).all Char.isAlphanum := by simp [Char.isAlphanum, h.1, h.2]
    have hword := scanWord_of_all hall hr
    simpa [scan, hq, isDigit_eq_false_of_isAlpha h.1, h.1] using hword

theorem scan_of_isNumeral {cs r : List Char} (h : isNumeral cs) (hr : Kind.number.EndsAt r) :
    scan (cs ++ r) = (.ok ⟨.number, cs⟩, r) := by
  have hnumber := scanNumber_of_isNumeral h hr
  cases cs with
  | nil => simp [isNumeral] at h
  | cons c cs =>
    have hc : c.isDigit := isDigit_of_isNumeral h
    have hq : c ≠ '"' := ne_of_isDigit hc (by decide)
    simpa [scan, hq, hc] using hnumber

/-- A sign ends a lexeme whatever follows it. -/
theorem scan_additive (op : Additive) (r : List Char) :
    scan (op.symbol.toList ++ r) = (.ok ⟨.additive op, op.symbol.toList⟩, r) := by
  cases op <;> rfl

theorem scan_multiplicative (op : Multiplicative) (r : List Char) :
    scan (op.symbol.toList ++ r) = (.ok ⟨.multiplicative op, op.symbol.toList⟩, r) := by
  cases op <;> rfl

theorem scan_comparison (op : Comparison) {r : List Char} (hr : (Kind.comparison op).EndsAt r) :
    scan (op.symbol.toList ++ r) = (.ok ⟨.comparison op, op.symbol.toList⟩, r) := by
  cases r with
  | nil => cases op <;> rfl
  | cons c r =>
    cases op with
    | lt | gt =>
      have hc : c ≠ '=' := hr c rfl
      simp [Comparison.symbol, scan, scanSymbol, Kind.ofCharEquals?, Kind.ofChar?, hc]
    | _ => rfl

theorem scan_equals {r : List Char} (hr : Kind.equals.EndsAt r) :
    scan ('=' :: r) = (.ok ⟨.equals, ['=']⟩, r) := by
  cases r with
  | nil => rfl
  | cons c r =>
    have hc : c ≠ '=' := hr c rfl
    simp [scan, scanSymbol, Kind.ofCharEquals?, Kind.ofChar?, hc]

theorem scan_spelling {w : Word} (hw : w.Valid) {r : List Char} (hr : w.1.EndsAt r) :
    scan (w.spelling ++ r) = (.ok ⟨w.1, w.2.toList⟩, r) := by
  obtain ⟨kind, text⟩ := w
  obtain ⟨hne, hadmits⟩ := hw
  cases kind with
  | eof => exact absurd rfl hne
  | newline =>
    obtain h : text.toList = ['\n'] := by simpa [Kind.admits] using hadmits
    simp only [Word.spelling, h]
    rfl
  | number => exact scan_of_isNumeral hadmits hr
  | ident =>
    obtain ⟨hname, hkeyword⟩ : isName text.toList ∧ Keyword.ofSpelling? text = none := by
      simpa [Kind.admits] using hadmits
    simpa [Word.spelling, Kind.ofWord, hkeyword] using scan_of_isName hname hr
  | string =>
    have hstring := scanString_of_all (r := r) hadmits
    simpa [Word.spelling, scan] using hstring
  | keyword k =>
    obtain h : text.toList = k.spelling.toList := by simpa [Kind.admits] using hadmits
    simpa [Word.spelling, h, Kind.ofWord_spelling] using scan_of_isName (isName_spelling k) hr
  | equals =>
    obtain h : text.toList = ['='] := by simpa [Kind.admits] using hadmits
    simpa [Word.spelling, h] using scan_equals hr
  | additive op =>
    obtain h : text.toList = op.symbol.toList := by simpa [Kind.admits] using hadmits
    simpa [Word.spelling, h] using scan_additive op r
  | multiplicative op =>
    obtain h : text.toList = op.symbol.toList := by simpa [Kind.admits] using hadmits
    simpa [Word.spelling, h] using scan_multiplicative op r
  | comparison op =>
    obtain h : text.toList = op.symbol.toList := by simpa [Kind.admits] using hadmits
    simpa [Word.spelling, h] using scan_comparison op hr

theorem isNumeral_of_all {cs : List Char} (hne : cs ≠ []) (h : cs.all Char.isDigit) :
    isNumeral cs := by
  have hall : ∀ d ∈ cs, d.isDigit := by simpa using h
  have htake : (cs ++ []).takeWhile Char.isDigit = cs ++ [] := List.takeWhile_append_of_pos hall
  have hdrop : (cs ++ []).dropWhile Char.isDigit = [] := List.dropWhile_append_of_pos hall
  rw [List.append_nil] at htake hdrop
  simp [isNumeral, htake, hdrop, hne]

theorem isNumeral_append {whole fraction : List Char} (hne : whole ≠ [])
    (h : whole.all Char.isDigit) (hne' : fraction ≠ []) (h' : fraction.all Char.isDigit) :
    isNumeral (whole ++ '.' :: fraction) := by
  have hall : ∀ d ∈ whole, d.isDigit := by simpa using h
  have hall' : ∀ d ∈ fraction, d.isDigit := by simpa using h'
  have htake : (whole ++ '.' :: fraction).takeWhile Char.isDigit =
      whole ++ ('.' :: fraction).takeWhile Char.isDigit := List.takeWhile_append_of_pos hall
  have hdrop : (whole ++ '.' :: fraction).dropWhile Char.isDigit =
      ('.' :: fraction).dropWhile Char.isDigit := List.dropWhile_append_of_pos hall
  simpa [isNumeral, htake, hdrop, hne, hne'] using hall'

theorem scanString_admits {cs r : List Char} {x : Lexeme} (h : scanString cs = (.ok x, r)) :
    x.kind.admits x.text := by
  have hall : (cs.takeWhile isStringPart).all isStringPart := List.all_takeWhile
  simp only [scanString] at h
  split at h
  · simp at h
  · split at h
    · cases h
      exact hall
    · simp at h

theorem scanNumber_admits {c : Char} {cs r : List Char} {x : Lexeme} (hc : c.isDigit)
    (h : scanNumber (c :: cs) = (.ok x, r)) : x.kind.admits x.text := by
  have hwhole : ((c :: cs).takeWhile Char.isDigit).all Char.isDigit := List.all_takeWhile
  have hne : (c :: cs).takeWhile Char.isDigit ≠ [] := by simp [hc]
  unfold scanNumber at h
  generalize (c :: cs).takeWhile Char.isDigit = whole at h hwhole hne
  split at h
  · next s _ =>
    have hfraction : (s.takeWhile Char.isDigit).all Char.isDigit := List.all_takeWhile
    split at h
    · simp at h
    · next hne' =>
      cases h
      exact isNumeral_append hne hwhole hne' hfraction
  · cases h
    exact isNumeral_of_all hne hwhole

theorem Kind.ofWord_admits {cs : List Char} (h : isName cs) : (ofWord cs).admits cs := by
  unfold Kind.ofWord
  split
  · next k hk => simp [Kind.admits, Keyword.spelling_of_ofSpelling? hk]
  · next hk => simp [Kind.admits, h, hk]

theorem scanWord_admits {c : Char} {cs r : List Char} {x : Lexeme} (hc : c.isAlpha)
    (h : scanWord (c :: cs) = (.ok x, r)) : x.kind.admits x.text := by
  have hall : (cs.takeWhile Char.isAlphanum).all Char.isAlphanum := List.all_takeWhile
  have hcons : (c :: cs).takeWhile Char.isAlphanum = c :: cs.takeWhile Char.isAlphanum := by
    simp [Char.isAlphanum, hc]
  simp only [scanWord, hcons] at h
  cases h
  have hname : isName (c :: cs.takeWhile Char.isAlphanum) := by
    rw [isName, hc, hall]
    rfl
  exact Kind.ofWord_admits hname

theorem Kind.ofCharEquals?_admits {c : Char} {k : Kind} (h : ofCharEquals? c = some k) :
    k.admits [c, '='] := by
  unfold Kind.ofCharEquals? at h
  repeat' split at h
  all_goals cases h
  all_goals
    subst_vars
    rfl

theorem Kind.ofChar?_admits {c : Char} {k : Kind} (h : ofChar? c = some k) : k.admits [c] := by
  unfold Kind.ofChar? at h
  repeat' split at h
  all_goals cases h
  all_goals
    subst_vars
    rfl

theorem scanSymbol_admits {c : Char} {cs r : List Char} {x : Lexeme}
    (h : scanSymbol c cs = (.ok x, r)) : x.kind.admits x.text := by
  unfold scanSymbol at h
  split at h
  · next k _ hk =>
    cases h
    exact Kind.ofCharEquals?_admits hk
  · split at h
    · next k hk =>
      cases h
      exact Kind.ofChar?_admits hk
    · split at h <;> simp at h

theorem scan_admits {cs r : List Char} {x : Lexeme} (h : scan cs = (.ok x, r)) :
    x.kind.admits x.text := by
  cases cs with
  | nil =>
    obtain ⟨rfl, rfl⟩ : ⟨.eof, []⟩ = x ∧ [] = r := by simpa [scan] using h
    rfl
  | cons c cs =>
    simp only [scan] at h
    split at h
    · exact scanString_admits h
    · split at h
      · next hc => exact scanNumber_admits hc h
      · split at h
        · next hc => exact scanWord_admits hc h
        · exact scanSymbol_admits h

theorem Kind.ofCharEquals?_ne_eof (c : Char) : ofCharEquals? c ≠ some .eof := by
  unfold Kind.ofCharEquals?
  repeat' split
  all_goals simp

theorem Kind.ofChar?_ne_eof (c : Char) : ofChar? c ≠ some .eof := by
  unfold Kind.ofChar?
  repeat' split
  all_goals simp

/-- Only the end of the text is scanned as its end. -/
theorem scan_ne_eof {c : Char} {cs r : List Char} {x : Lexeme} (h : scan (c :: cs) = (.ok x, r)) :
    x.kind ≠ .eof := by
  simp only [scan, scanString, scanNumber, scanWord, scanSymbol] at h
  repeat' split at h
  all_goals cases h
  · simp
  · simp
  · simp
  · exact Kind.ofWord_ne (by simp) (by simp) _
  · rintro rfl
    exact Kind.ofCharEquals?_ne_eof c ‹_›
  · rintro rfl
    exact Kind.ofChar?_ne_eof c ‹_›

/-- The characters `cs` are scanned as the words `ws`, with `r` left over. -/
inductive Lexes : List Char → List Word → List Char → Prop where
  | nil (r : List Char) : Lexes r [] r
  | cons {cs m r : List Char} {x : Lexeme} {ws : List Word} :
      scan (skipTrivia cs) = (.ok x, m) → x.kind ≠ .eof → Lexes m ws r →
        Lexes cs (x.word :: ws) r

namespace Lexes
variable {cs m r : List Char} {ws vs : List Word} {w : Word}

theorem eq_nil (h : Lexes [] ws r) : ws = [] := by
  cases h with
  | nil => rfl
  | cons hscan hne _ =>
    simp only [skipTrivia, List.dropWhile_nil, scan, Prod.mk.injEq, Except.ok.injEq] at hscan
    exact absurd (congrArg Lexeme.kind hscan.1.symm) hne

/-- A blank before a word is skipped. -/
theorem blank (h : Lexes cs (w :: ws) r) : Lexes (' ' :: cs) (w :: ws) r := by
  cases h with
  | cons hscan hne h => exact .cons hscan hne h

/-- What a whole text is scanned as. -/
theorem eq_of_nil (h : Lexes cs ws []) (h' : Lexes cs vs []) : ws = vs := by
  generalize hr : ([] : List Char) = r at h
  induction h generalizing vs with
  | nil r =>
    subst hr
    exact h'.eq_nil.symm
  | @cons cs m r x ws hscan hne h ih =>
    subst hr
    cases h' with
    | nil => exact absurd (eq_nil (.cons hscan hne h)) (List.cons_ne_nil _ _)
    | cons hscan' _ h' =>
      obtain ⟨rfl, rfl⟩ : x = _ ∧ m = _ := by simpa [hscan] using hscan'
      rw [ih h' rfl]

end Lexes

end TeenyToC
