import Mathlib
import TeenyToC.Proofs.Places
import TeenyToC.Proofs.Tokenization

/-! Numbers in C text. A number is written as it stands in the program. C reads it as a constant of
the same value, except where it is whole and begins with a zero: such a constant is octal, and has
the decimal value only if that is less than eight (`keepsValue_iff`). -/

namespace TeenyToC

/-- What digits before and after a point stand for. -/
def decimal (whole fraction : List Char) : ℚ :=
  Nat.ofDigitChars 10 whole 0 + Nat.ofDigitChars 10 fraction 0 / 10 ^ fraction.length

/-- The value of a number in a program. -/
def decimalValue (cs : List Char) : ℚ :=
  decimal (cs.takeWhile Char.isDigit) ((cs.dropWhile Char.isDigit).drop 1)

def isOctalDigit (c : Char) : Bool := c.isDigit && c.toNat < '8'.toNat

/-- The value of a whole constant in C: after a zero the digits are octal. -/
def wholeConstant? : List Char → Option ℚ
  | [] => none
  | '0' :: octal => if octal.all isOctalDigit then some (Nat.ofDigitChars 8 octal 0) else none
  | cs => some (Nat.ofDigitChars 10 cs 0)

/-- The value of a decimal or octal constant in C, without a suffix, or of a floating one without an
exponent. Either side of the point may be left empty. -/
def constant? (cs : List Char) : Option ℚ :=
  let whole := cs.takeWhile Char.isDigit
  match cs.dropWhile Char.isDigit with
  | [] => wholeConstant? whole
  | c :: fraction =>
    if c = '.' ∧ fraction.all Char.isDigit ∧ (whole ≠ [] ∨ fraction ≠ []) then
      some (decimal whole fraction)
    else none

/-- The number behind the words `before` is written as a constant that has its value. -/
def KeepsValue (c : CSource) (before : List Word) (digits : String) : Prop :=
  ∃ lead code trail, WrittenAs c before [(.number, digits)] lead code trail ∧
    constant? code.toList = some (decimalValue digits.toList)

section
variable {b n : Nat} {c : Char} {cs : List Char}

theorem le_ofDigitChars (hb : 0 < b) : n ≤ Nat.ofDigitChars b cs n := by
  induction cs generalizing n with
  | nil => rfl
  | cons c cs ih =>
    rw [Nat.ofDigitChars_cons]
    have hn : n ≤ b * n := Nat.le_mul_of_pos_left n hb
    exact (by omega : n ≤ b * n + (c.toNat - '0'.toNat)).trans ih

theorem digit_le_ofDigitChars (hb : 0 < b) (hc : c ∈ cs) :
    c.toNat - '0'.toNat ≤ Nat.ofDigitChars b cs n := by
  induction cs generalizing n with
  | nil => cases hc
  | cons d cs ih =>
    rw [Nat.ofDigitChars_cons]
    rcases List.mem_cons.mp hc with rfl | hc
    · exact (Nat.le_add_left _ _).trans (le_ofDigitChars hb)
    · exact ih hc

theorem ofDigitChars_mono {b' n' : Nat} (hb : b ≤ b') (hn : n ≤ n') :
    Nat.ofDigitChars b cs n ≤ Nat.ofDigitChars b' cs n' := by
  induction cs generalizing n n' with
  | nil => exact hn
  | cons c cs ih =>
    rw [Nat.ofDigitChars_cons, Nat.ofDigitChars_cons]
    exact ih (Nat.add_le_add_right (Nat.mul_le_mul hb hn) _)

/-- All but the last of some octal digits are zero if they have their decimal value. -/
theorem ofDigitChars_eight_eq_iff (hcs : cs.all isOctalDigit) :
    Nat.ofDigitChars 8 cs 0 = Nat.ofDigitChars 10 cs 0 ↔ Nat.ofDigitChars 10 cs 0 < 8 := by
  rcases List.eq_nil_or_concat cs with rfl | ⟨ds, d, rfl⟩
  · simp
  · simp only [List.concat_eq_append, List.all_append, List.all_cons, List.all_nil, isOctalDigit,
      Bool.and_eq_true, decide_eq_true_eq] at hcs
    have hle : Nat.ofDigitChars 8 ds 0 ≤ Nat.ofDigitChars 10 ds 0 :=
      ofDigitChars_mono (by decide) le_rfl
    have hzero : '0'.toNat = 48 := rfl
    have height : '8'.toNat = 56 := rfl
    simp only [List.concat_eq_append, Nat.ofDigitChars_append, Nat.ofDigitChars_cons,
      Nat.ofDigitChars_nil]
    omega

theorem all_isOctalDigit_of_lt (hcs : cs.all Char.isDigit) (h : Nat.ofDigitChars 10 cs 0 < 8) :
    cs.all isOctalDigit := by
  rw [List.all_eq_true] at hcs ⊢
  intro c hc
  have hle : c.toNat - '0'.toNat ≤ Nat.ofDigitChars 10 cs 0 := digit_le_ofDigitChars (by decide) hc
  have hzero : '0'.toNat = 48 := rfl
  have height : '8'.toNat = 56 := rfl
  simp only [isOctalDigit, hcs c hc, Bool.true_and, decide_eq_true_eq]
  omega

theorem wholeConstant?_eq_some_iff {d : Char} (hcs : (d :: cs).all Char.isDigit) :
    wholeConstant? (d :: cs) = some (Nat.ofDigitChars 10 (d :: cs) 0 : ℚ) ↔
      d ≠ '0' ∨ Nat.ofDigitChars 10 (d :: cs) 0 < 8 := by
  by_cases hd : d = '0'
  · subst hd
    have hdigits : cs.all Char.isDigit := (Bool.and_eq_true _ _).mp hcs |>.2
    have hzero : Nat.ofDigitChars 10 ('0' :: cs) 0 = Nat.ofDigitChars 10 cs 0 := rfl
    rw [hzero]
    by_cases hoctal : cs.all isOctalDigit
    · rw [← ofDigitChars_eight_eq_iff hoctal]
      simp [wholeConstant?, hoctal]
    · have hlarge : ¬Nat.ofDigitChars 10 cs 0 < 8 := fun h =>
        hoctal (all_isOctalDigit_of_lt hdigits h)
      simp [wholeConstant?, hoctal, hlarge]
  · simp [wholeConstant?, hd]

end

theorem decimal_nil (whole : List Char) : decimal whole [] = Nat.ofDigitChars 10 whole 0 := by
  simp [decimal]

/-- Only a whole number that begins with a zero can lose its value. -/
theorem constant?_eq_some_iff {cs : List Char} (h : isNumeral cs) :
    constant? cs = some (decimalValue cs) ↔
      '.' ∈ cs ∨ cs.head? ≠ some '0' ∨ decimalValue cs < 8 := by
  have hcs : cs.takeWhile Char.isDigit ++ cs.dropWhile Char.isDigit = cs :=
    List.takeWhile_append_dropWhile
  have hdigits : (cs.takeWhile Char.isDigit).all Char.isDigit := List.all_takeWhile
  simp only [isNumeral, Bool.and_eq_true, Bool.not_eq_true', List.isEmpty_eq_false_iff] at h
  obtain ⟨hne, h⟩ := h
  obtain ⟨d, ds, hwhole⟩ := List.exists_cons_of_ne_nil hne
  split at h
  · next hdrop =>
    rw [hdrop, hwhole, List.append_nil] at hcs
    rw [hwhole] at hdigits
    have hpoint : '.' ∉ cs := fun hmem => by
      rw [← hcs] at hmem
      cases (List.all_eq_true.mp hdigits _ hmem : Char.isDigit '.')
    have hvalue : decimalValue cs = Nat.ofDigitChars 10 (d :: ds) 0 := by
      rw [decimalValue, hdrop, hwhole, List.drop_nil, decimal_nil]
    have hconstant : constant? cs = wholeConstant? (d :: ds) := by
      rw [constant?, hdrop, hwhole]
    rw [hconstant, hvalue, wholeConstant?_eq_some_iff hdigits, ← hcs]
    have height : ((Nat.ofDigitChars 10 (d :: ds) 0 : ℕ) : ℚ) < 8 ↔
        Nat.ofDigitChars 10 (d :: ds) 0 < 8 := by exact_mod_cast Iff.rfl
    rw [height, List.head?_cons]
    simp [hcs, hpoint]
  · next c fraction hdrop =>
    simp only [Bool.and_eq_true, decide_eq_true_eq] at h
    obtain ⟨⟨rfl, -⟩, hfraction⟩ := h
    have hpoint : '.' ∈ cs := by
      rw [← hcs, hdrop]
      simp
    have hconstant : constant? cs = some (decimalValue cs) := by
      rw [constant?, decimalValue, hdrop]
      simp [hfraction, hne]
    simp [hconstant, hpoint]

namespace Compilation
variable {s m : Compilation} {c : CSource} {ws : List Word} {digits : String}

/-- A number is written as it is, wherever it is accepted. -/
theorem body_of_step_number (h : s.step (.ofWord (.number, digits)) = .ok m) :
    m.code.body = s.code.body ++ s.opening ++ digits := by
  have htakes := takes_of_step h nofun
  cases hs : s.phase with
  | printed =>
    rw [step_printed hs] at h
    cases h
    simp [opening, hs, write, await, CSource.write, Token.ofWord]
  | signed p =>
    rw [step_signed hs] at h
    cases h
    simp [opening, hs, write, await, CSource.write, Token.ofWord]
  | operand p =>
    rw [step_operand hs] at h
    cases h
    simp [opening, hs, write, await, CSource.write, Token.ofWord]
  | _ =>
    rw [hs] at htakes
    cases htakes

end Compilation

/-- A number keeps its value in C unless it is whole, begins with a zero and is not less than eight.
Either way it is written as it stands in the program. -/
theorem keepsValue_iff {source digits : String} {c : CSource} {ts : List Token}
    {before after : List Word} (h : compile source = .ok c) (hts : tokenize source = .ok ts)
    (hws : ts.map Token.word = before ++ (.number, digits) :: after) :
    (∃ lead trail, WrittenAs c before [(.number, digits)] lead digits trail) ∧
      (KeepsValue c before digits ↔ '.' ∈ digits.toList ∨ digits.toList.head? ≠ some '0' ∨
        decimalValue digits.toList < 8) := by
  obtain ⟨s, rest, hs, -, hproduces, hvalid⟩ := exists_produces h hts hws (by simp [eofWord])
  obtain ⟨m, hm, hrest⟩ := hproduces.of_cons
  obtain ⟨trail, htrail⟩ := hrest.extends
  have hwritten := writtenAs_of_read hs (Compilation.read_singleton.trans hm)
    (Compilation.body_of_step_number hm) htrail
  have hnumeral : isNumeral digits.toList := isNumeral_of_valid (hvalid _ (by simp))
  refine ⟨⟨_, trail, hwritten⟩, ?_⟩
  rw [← constant?_eq_some_iff hnumeral]
  constructor
  · intro hkeeps
    obtain ⟨lead, code, trail', hwritten', hvalue⟩ := hkeeps
    obtain ⟨-, rfl, -⟩ := hwritten.unique hwritten'
    exact hvalue
  · intro hvalue
    exact ⟨_, digits, trail, hwritten, hvalue⟩

/-- Zeros in front of a point are harmless. -/
theorem keepsValue_iff_fraction : ∃ c ts, compile "PRINT -010.50" = .ok c ∧
    tokenize "PRINT -010.50" = .ok ts ∧
      ts.map Token.word = [Keyword.print.word, Additive.minus.word] ++
        (.number, "010.50") :: [newlineWord, eofWord] ∧
      KeepsValue c [Keyword.print.word, Additive.minus.word] "010.50" := by
  have h : compile "PRINT -010.50" = .ok ⟨"#include <stdio.h>\nint main(void)\x7b\n",
      "printf(\"%.2f\\n\", (float)(-010.50));\nreturn 0;\n\x7d\n"⟩ := by cbv
  have hts : tokenize "PRINT -010.50" = .ok [⟨.keyword .print, "PRINT", 1⟩,
      ⟨.additive .minus, "-", 1⟩, ⟨.number, "010.50", 1⟩, ⟨.newline, "\n", 1⟩,
      ⟨.eof, "", 2⟩] := by cbv
  exact ⟨_, _, h, hts, rfl, (keepsValue_iff h hts rfl).2.mpr (.inl (by decide))⟩

/-- The number ten is written `010`, which is eight in C. -/
theorem not_keepsValue_octal : ¬∀ (source digits : String) (c : CSource) (ts : List Token)
    (before after : List Word), compile source = .ok c → tokenize source = .ok ts →
      ts.map Token.word = before ++ (.number, digits) :: after → KeepsValue c before digits := by
  intro hall
  let c : CSource := ⟨"#include <stdio.h>\nint main(void)\x7b\n",
    "printf(\"%.2f\\n\", (float)(010));\nreturn 0;\n\x7d\n"⟩
  have h : compile "PRINT 010" = .ok c := by cbv
  have hts : tokenize "PRINT 010" = .ok [⟨.keyword .print, "PRINT", 1⟩,
      ⟨.number, "010", 1⟩, ⟨.newline, "\n", 1⟩, ⟨.eof, "", 2⟩] := by cbv
  obtain ⟨lead, code, trail, hwritten, hvalue⟩ := hall _ "010" _ _ [Keyword.print.word] _ h hts rfl
  have hprinted : Compilation.start.read [Keyword.print.word] =
      .ok (Compilation.start.await .printed) := by rfl
  have hnumber : WrittenAs c [Keyword.print.word] [(.number, "010")] _ "010"
      "));\nreturn 0;\n\x7d\n" := writtenAs_of_read hprinted rfl (by rfl) (by rfl)
  obtain ⟨-, rfl, -⟩ := hnumber.unique hwritten
  have height : constant? "010".toList = some (8 : ℕ) := rfl
  have hten : decimalValue "010".toList = (10 : ℕ) := decimal_nil "010".toList
  rw [height, hten] at hvalue
  norm_num at hvalue

end TeenyToC
