import Mathlib.Tactic.IntervalCases
import TeenyToC.Text.Quoted

/-! Text in double quotes can be read back. A character that is not escaped is no backslash and no
quote, so the first characters tell whether and how the next one is escaped (`unescape_escape`),
and the quote that ends the text is the first one that is not behind a backslash. Two quoted texts
with anything behind them are therefore the same only if the texts are (`quote_append_inj`). -/

namespace TeenyToC.Text

def hexValue (c : Char) : Nat :=
  if c.isDigit then c.toNat - '0'.toNat else c.toNat - 'a'.toNat + 10

def hexNumber (digits : List Char) : Nat := digits.foldl (fun n c => n * 16 + hexValue c) 0

/-- The character that is written behind a backslash, and what is left. -/
def unescapeMark : List Char → Option (Char × List Char)
  | [] => none
  | '0' :: r => some ('\x00', r)
  | 't' :: r => some ('\t', r)
  | 'r' :: r => some ('\r', r)
  | 'n' :: r => some ('\n', r)
  | 'u' :: r =>
    let digits := (r.drop 1).takeWhile Char.isAlphanum
    some (Char.ofNat (hexNumber digits), r.drop (digits.length + 2))
  | c :: r => some (c, r)

/-- The first character of a quoted text, from behind its opening quote on, and what is left. -/
def unescape : List Char → Option (Char × List Char)
  | [] => none
  | c :: r => if c = '"' then none else if c = '\\' then unescapeMark r else some (c, r)

theorem hexValue_digitChar {n : Nat} (hn : n < 16) : hexValue n.digitChar = n := by
  interval_cases n <;> rfl

theorem isAlphanum_digitChar {n : Nat} (hn : n < 16) : n.digitChar.isAlphanum := by
  interval_cases n <;> rfl

theorem isAlphanum_toDigits {b : Nat} (hb : 1 < b) (hle : b ≤ 16) (n : Nat) :
    (Nat.toDigits b n).all Char.isAlphanum := by
  induction n using Nat.strong_induction_on with
  | _ n ih =>
    rcases Nat.lt_or_ge n b with hlt | hge
    · rw [Nat.toDigits_of_lt_base hlt]
      simp [isAlphanum_digitChar (hlt.trans_le hle)]
    · have hlast : n % b < 16 := (Nat.mod_lt n (by omega)).trans_le hle
      rw [Nat.toDigits_of_base_le hb hge, List.all_append,
        ih (n / b) (Nat.div_lt_self (by omega) hb)]
      simp [isAlphanum_digitChar hlast]

theorem hexNumber_toDigits (n : Nat) : hexNumber (Nat.toDigits 16 n) = n := by
  induction n using Nat.strong_induction_on with
  | _ n ih =>
    rcases Nat.lt_or_ge n 16 with hlt | hge
    · rw [Nat.toDigits_of_lt_base hlt]
      simp [hexNumber, hexValue_digitChar hlt]
    · have hnumber := ih (n / 16) (by omega)
      rw [hexNumber] at hnumber
      rw [Nat.toDigits_of_base_le (by omega) hge, hexNumber, List.foldl_append, hnumber,
        List.foldl_cons, List.foldl_nil, hexValue_digitChar (Nat.mod_lt n (by omega))]
      omega

theorem unescape_hexEscape (c : Char) (r : List Char) :
    unescape (hexEscape c ++ r) = some (c, r) := by
  have hall := isAlphanum_toDigits (b := 16) (by omega) le_rfl c.toNat
  have hdigits : (Nat.toDigits 16 c.toNat ++ '\x7d' :: r).takeWhile Char.isAlphanum =
      Nat.toDigits 16 c.toNat := by
    rw [List.takeWhile_append_of_pos (List.all_eq_true.mp hall)]
    simp
  have hrest : (Nat.toDigits 16 c.toNat ++ '\x7d' :: r).drop
      ((Nat.toDigits 16 c.toNat).length + 1) = r := by
    rw [List.drop_append]
    simp
  simp [hexEscape, unescape, unescapeMark, hdigits, hexNumber_toDigits, hrest]

theorem unescape_escape (c : Char) (r : List Char) :
    unescape (escape '"' c ++ r) = some (c, r) := by
  unfold escape
  split_ifs with h0 ht hr hn hmark hhex
  · rw [h0]; rfl
  · rw [ht]; rfl
  · rw [hr]; rfl
  · rw [hn]; rfl
  · rcases hmark with rfl | rfl <;> rfl
  · exact unescape_hexEscape c r
  · simp [unescape, not_or.mp hmark]

/-- The closing quote stands where no character is read any more. -/
theorem flatMap_escape_append_inj {cs ds r s : List Char}
    (h : cs.flatMap (escape '"') ++ '"' :: r = ds.flatMap (escape '"') ++ '"' :: s) :
    cs = ds ∧ r = s := by
  have hclosed (r : List Char) : unescape ('"' :: r) = none := rfl
  have hfirst (c : Char) (cs r : List Char) :
      unescape ((c :: cs).flatMap (escape '"') ++ r) = some (c, cs.flatMap (escape '"') ++ r) := by
    rw [List.flatMap_cons, List.append_assoc, unescape_escape]
  induction cs generalizing ds with
  | nil =>
    cases ds with
    | nil => exact ⟨rfl, (List.cons.inj h).2⟩
    | cons d ds =>
      have hread := congrArg unescape h
      rw [hfirst] at hread
      cases (hclosed r).symm.trans hread
  | cons c cs ih =>
    have hread := congrArg unescape h
    rw [hfirst] at hread
    cases ds with
    | nil => cases hread.trans (hclosed s)
    | cons d ds =>
      rw [hfirst] at hread
      obtain ⟨rfl, hrest⟩ := Prod.mk.inj (Option.some.inj hread)
      obtain ⟨rfl, hbehind⟩ := ih hrest
      exact ⟨rfl, hbehind⟩

theorem quote_append_inj {s t : String} {r r' : List Char}
    (h : (quote s).toList ++ r = (quote t).toList ++ r') : s = t ∧ r = r' := by
  simp only [quote, quoted, String.toList_ofList, List.cons_append, List.append_assoc,
    List.nil_append] at h
  obtain ⟨htext, hbehind⟩ := flatMap_escape_append_inj (List.cons.inj h).2
  exact ⟨String.toList_inj.mp htext, hbehind⟩

end TeenyToC.Text
