import TeenyToC.Proofs.ScannerCalls

/-! What the scanner does after a fault. It stands at the wrong character then. A call that finds
no lexeme there is the same as all behind it, so the scanner never gets past the fault. Only a tab,
a carriage return or a newline that was wrong in a string is right outside of one: from there on the
rest of the text is scanned as a text of its own (`after_space`). -/

namespace TeenyToC

/-- What is wrong with a character that no lexeme begins with. The rest of what it was found in is
forgotten. -/
def LexFault.again : LexFault → LexFault
  | illegalStringChar c => unknownChar c
  | malformedNumber => unknownChar '.'
  | fault => fault

section Faults
variable {cs lead r : List Char} {c : Char} {fault : LexFault}

theorem isControl_iff : isControl c ↔ c.toNat < 32 ∨ 127 ≤ c.toNat ∧ c.toNat ≤ 159 := by
  simp [isControl]

theorem isAlphanum_eq_false_of_isControl (h : isControl c) : c.isAlphanum = false := by
  rw [isControl_iff] at h
  unfold Char.isAlphanum Char.isAlpha Char.isUpper Char.isLower Char.isDigit
  simp only [Bool.or_eq_false_iff, Bool.and_eq_false_imp, decide_eq_true_eq,
    decide_eq_false_iff_not, ge_iff_le, UInt32.le_iff_toNat_le]
  have hc : c.val.toNat = c.toNat := rfl
  have h0 : ('0' : Char).val.toNat = 48 := rfl
  have h9 : ('9' : Char).val.toNat = 57 := rfl
  have hA : ('A' : Char).val.toNat = 65 := rfl
  have hZ : ('Z' : Char).val.toNat = 90 := rfl
  have ha : ('a' : Char).val.toNat = 97 := rfl
  have hz : ('z' : Char).val.toNat = 122 := rfl
  omega

/-- A character that is illegal in a string is unknown outside of one, but for these three. -/
theorem isFault_unknown_of_illegal (hc : isControl c ∨ c = '\\' ∨ c = '%')
    (hspace : c ∉ ['\t', '\r', '\n']) (r : List Char) : IsFault (c :: r) (.unknownChar c) [] := by
  have halnum : c.isAlphanum = false := by
    rcases hc with hc | rfl | rfl
    · exact isAlphanum_eq_false_of_isControl hc
    · rfl
    · rfl
  obtain ⟨halpha, hdigit⟩ := Bool.or_eq_false_iff.mp halnum
  refine .unknown halpha hdigit fun hmem => ?_
  -- The characters that lexemes and trivia begin with, apart from letters and digits.
  have hknown : ∀ d ∈ ['"', '!', '#', ' ', '\t', '\r', '\n', '=', '<', '>', '+', '-', '*', '/'],
      d ∉ ['\t', '\r', '\n'] → ¬isControl d ∧ d ≠ '\\' ∧ d ≠ '%' := by simp [isControl]
  obtain ⟨hcontrol, hbackslash, hpercent⟩ := hknown c hmem hspace
  rcases hc with hc | hc | hc
  · exact hcontrol hc
  · exact hbackslash hc
  · exact hpercent hc

/-- The wrong character is a fault by itself. -/
theorem IsFault.again (h : IsFault (lead ++ r) fault lead)
    (hspace : ∀ c ∈ ['\t', '\r', '\n'], fault ≠ .illegalStringChar c) :
    IsFault r fault.again [] := by
  generalize hcs : lead ++ r = cs at h
  cases h with
  | @string body rest c hbody hc =>
    have hcs : '"' :: body ++ r = '"' :: body ++ c :: rest := hcs
    obtain rfl := List.append_cancel_left hcs
    exact isFault_unknown_of_illegal hc (fun hmem => hspace c hmem rfl) rest
  | number _ _ =>
    obtain rfl := List.append_cancel_left hcs
    exact .unknown rfl rfl (by decide)
  | notEqual hc =>
    obtain rfl : r = _ := hcs
    exact .notEqual hc
  | unknown ha hd hc =>
    obtain rfl : r = _ := hcs
    exact .unknown ha hd hc

/-- What is wrong from its first character on is not taken for trivia. -/
theorem IsFault.skipTrivia_eq (h : IsFault cs fault []) : skipTrivia cs = cs := by
  generalize hlead : ([] : List Char) = lead at h
  cases h with
  | string => cases hlead
  | number hds => exact absurd hlead.symm hds.1
  | notEqual => exact skipTrivia_cons _ (by decide) (by decide)
  | unknown _ _ hc =>
    simp only [List.mem_cons, List.not_mem_nil, or_false, not_or] at hc
    exact skipTrivia_cons _ (by simp [isBlank, hc]) hc.2.2.1

theorem Cursor.next_of_isFault {cur : Cursor} (h : IsFault cur.rest fault []) :
    cur.next = (.error ⟨cur.line, fault⟩, cur) := by
  obtain ⟨rest, hsplit, hscan⟩ := h.scan_eq
  obtain rfl : cur.rest = rest := hsplit
  rw [next, h.skipTrivia_eq, hscan]

end Faults

open Cursor

section Calls
variable {source : String} {i : Nat} {line : Nat} {fault : LexFault} {c : Char} {t : Token}

/-- Where the cursor stands after a call that fails. -/
theorem stands_of_call_error (h : (start source).call i = .error ⟨line, fault⟩) :
    ∃ before lead, Stands source (before ++ lead) ((start source).after (i + 1)) ∧
      IsFault (lead ++ ((start source).after (i + 1)).rest) fault lead ∧
        line = ((start source).after (i + 1)).line := by
  obtain ⟨read, hread⟩ := Stands.after source i
  obtain ⟨tr, lead, hstands, hfault, hline⟩ := hread.next_error (Prod.ext h rfl)
  rw [after_succ]
  exact ⟨read ++ tr, lead, by rwa [List.append_assoc], hfault, hline⟩

/-- The scanner does not get past a fault, nor past the end. -/
theorem call_after_error (h : (start source).call i = .error ⟨line, fault⟩)
    (hspace : ∀ c ∈ ['\t', '\r', '\n'], fault ≠ .illegalStringChar c) (n : Nat) :
    (start source).call (i + 1 + n) = .error ⟨line, fault.again⟩ := by
  obtain ⟨before, lead, -, hfault, rfl⟩ := stands_of_call_error h
  rw [call_add]
  exact call_of_next_self (next_of_isFault (hfault.again hspace)) n

theorem call_after_eof (h : (start source).call i = .ok t) (ht : t.kind = .eof) (n : Nat) :
    (start source).call (i + 1 + n) = .ok t := by
  obtain ⟨read, hread⟩ := Stands.after source i
  have hnext : ((start source).after i).next = (.ok t, (start source).after (i + 1)) := by
    rw [after_succ]
    exact Prod.ext h rfl
  obtain ⟨hrest, rfl, -⟩ := hread.next_eof hnext ht
  rw [call_add, hrest]
  exact call_of_next_self (hrest ▸ hnext) n

/-- A cursor that has not come to the end of a text stands before another one. -/
theorem eq_shift_start {read : List Char} {cur : Cursor} (h : Stands source read cur)
    (hne : cur.rest ≠ []) : ∃ rest, source.toList = read ++ rest ∧
      cur = (start (String.ofList rest)).shift (read.count '\n') := by
  -- What is left ends with the newline that every text is given, and so does another text.
  obtain ⟨rest, d, hrest⟩ : ∃ rest d, cur.rest = rest ++ [d] :=
    ⟨_, _, (List.dropLast_append_getLast hne).symm⟩
  have hsplit := h.split
  rw [hrest, ← List.append_assoc] at hsplit
  obtain ⟨hsource, hd⟩ := List.append_inj' hsplit rfl
  obtain rfl : d = '\n' := (List.singleton_inj.mp hd).symm
  refine ⟨rest, hsource, ?_⟩
  obtain ⟨cs, line⟩ := cur
  obtain rfl : cs = rest ++ ['\n'] := hrest
  obtain rfl : line = 1 + read.count '\n' := h.line
  simp [start, shift]

/-- Behind a blank or a newline that was wrong in a string, the scanner stands as at the start of
the rest of the text. -/
theorem after_space (h : (start source).call i = .error ⟨line, .illegalStringChar c⟩) :
    ∃ before body rest, source.toList = before ++ '"' :: body ++ rest ∧
      (∀ d ∈ body, isStringPart d) ∧ (rest ++ ['\n']).head? = some c ∧
        line = 1 + (before ++ '"' :: body).count '\n' ∧ (start source).after (i + 1) =
          (start (String.ofList rest)).shift ((before ++ '"' :: body).count '\n') := by
  obtain ⟨before, lead, hstands, hfault, rfl⟩ := stands_of_call_error h
  generalize hcs : lead ++ ((start source).after (i + 1)).rest = cs at hfault
  cases hfault with
  | @string body rest c hbody hc =>
    have hcs : '"' :: body ++ ((start source).after (i + 1)).rest = '"' :: body ++ c :: rest := hcs
    have hrest := List.append_cancel_left hcs
    obtain ⟨rest', hsource, hcur⟩ := eq_shift_start hstands (by simp [hrest])
    have hhead : (rest' ++ ['\n']).head? = some c := by
      have hcs := congrArg Cursor.rest hcur
      rw [hrest] at hcs
      have hcs : c :: rest = rest' ++ ['\n'] := by simpa [start, shift] using hcs
      rw [← hcs, List.head?_cons]
    exact ⟨before, body, rest', hsource, fun d hd => isStringPart_iff.mpr (hbody d hd), hhead,
      hstands.line, hcur⟩

end Calls

/-- Every call behind a fault is told by it, however many there are. A character that no lexeme
begins with is met again and again, on its line; after a tab, a carriage return or a newline in a
string the scanner stands as at the start of the rest of the text from that character on, with its
lines counted on, and so goes on with the calls on that text; and the end of the text stays. -/
theorem call_behind (source : String) (i : Nat) :
    (∀ line c, (start source).call i = .error ⟨line, .unknownChar c⟩ →
      ∀ n, (start source).call (i + 1 + n) = .error ⟨line, .unknownChar c⟩) ∧
    (∀ line c, (start source).call i = .error ⟨line, .incompleteNotEqual c⟩ →
      ∀ n, (start source).call (i + 1 + n) = .error ⟨line, .incompleteNotEqual c⟩) ∧
    (∀ line, (start source).call i = .error ⟨line, .malformedNumber⟩ →
      ∀ n, (start source).call (i + 1 + n) = .error ⟨line, .unknownChar '.'⟩) ∧
    (∀ line c, c ∉ ['\t', '\r', '\n'] →
      (start source).call i = .error ⟨line, .illegalStringChar c⟩ →
        ∀ n, (start source).call (i + 1 + n) = .error ⟨line, .unknownChar c⟩) ∧
    (∀ line c, c ∈ ['\t', '\r', '\n'] →
      (start source).call i = .error ⟨line, .illegalStringChar c⟩ →
        ∃ before body rest, source.toList = before ++ '"' :: body ++ rest ∧
          (∀ d ∈ body, isStringPart d) ∧ (rest ++ ['\n']).head? = some c ∧
            line = 1 + (before ++ '"' :: body).count '\n' ∧
              (start source).after (i + 1) =
                (start (String.ofList rest)).shift ((before ++ '"' :: body).count '\n') ∧
              ∀ n, (start source).call (i + 1 + n) =
                ((start (String.ofList rest)).shift
                  ((before ++ '"' :: body).count '\n')).call n) ∧
    ∀ t, (start source).call i = .ok t → t.kind = .eof →
      ∀ n, (start source).call (i + 1 + n) = .ok t := by
  refine ⟨fun line c h => ?_, fun line c h => ?_, fun line h => ?_, fun line c hc h => ?_,
    fun line c _ h => ?_, fun t h ht => call_after_eof h ht⟩
  · exact call_after_error h fun _ _ => nofun
  · exact call_after_error h fun _ _ => nofun
  · exact call_after_error h fun _ _ => nofun
  · refine call_after_error h fun d hd heq => hc ?_
    rwa [LexFault.illegalStringChar.inj heq]
  · obtain ⟨before, body, rest, hsource, hbody, hhead, hline, hafter⟩ := after_space h
    refine ⟨before, body, rest, hsource, hbody, hhead, hline, hafter, fun n => ?_⟩
    rw [call_add, hafter]

/-- Two strings that each have a quote in front of a tab. The scanner goes on behind the second one,
up to a `!` that no `=` follows. -/
theorem call_behind_tab :
    (start "\"x\"\t\"a\t!b").call 1 = .error ⟨1, .illegalStringChar '\t'⟩ ∧
      (∃ before body rest, "\"x\"\t\"a\t!b".toList = before ++ '"' :: body ++ rest ∧
        (∀ d ∈ body, isStringPart d) ∧ (rest ++ ['\n']).head? = some '\t' ∧
          1 = 1 + (before ++ '"' :: body).count '\n' ∧
            (start "\"x\"\t\"a\t!b").after 2 =
              (start (String.ofList rest)).shift ((before ++ '"' :: body).count '\n') ∧
            ∀ n, (start "\"x\"\t\"a\t!b").call (1 + 1 + n) =
              ((start (String.ofList rest)).shift ((before ++ '"' :: body).count '\n')).call n) ∧
      (start "\"x\"\t\"a\t!b").call 2 = .error ⟨1, .incompleteNotEqual 'b'⟩ ∧
        (∀ n, (start "\"x\"\t\"a\t!b").call (2 + 1 + n) = .error ⟨1, .incompleteNotEqual 'b'⟩) ∧
          (start "").call 1 = .ok ⟨.eof, "", 2⟩ ∧
            ∀ n, (start "").call (1 + 1 + n) = .ok ⟨.eof, "", 2⟩ := by
  have htab : (start "\"x\"\t\"a\t!b").call 1 = .error ⟨1, .illegalStringChar '\t'⟩ := by cbv
  have hmark : (start "\"x\"\t\"a\t!b").call 2 = .error ⟨1, .incompleteNotEqual 'b'⟩ := by cbv
  have hend : (start "").call 1 = .ok ⟨.eof, "", 2⟩ := by cbv
  exact ⟨htab, (call_behind _ 1).2.2.2.2.1 _ _ (by decide) htab, hmark,
    (call_behind _ 2).2.1 _ _ hmark, hend, (call_behind _ 1).2.2.2.2.2 _ hend rfl⟩

end TeenyToC
