import TeenyToC.Proofs.Emission

/-! Where words are written. The body of the C text only grows (`Extends`), so what is written for
some words of a program stays at its place: behind what the words before them left, and in front of
what the words after them add (`WrittenAs`). -/

namespace TeenyToC

namespace Compilation

/-- The body of the first state begins that of the second. -/
def Extends (s m : Compilation) : Prop := ∃ code, m.code.body = s.code.body ++ code

/-- The words that are left end the program, and its C text is then `c`. -/
def Produces (s : Compilation) (ws : List Word) (c : CSource) : Prop :=
  ∃ m r, s.read ws = .ok m ∧ m.finish (.ofWord eofWord) = .ok r ∧ r.code = c

/-- The opening of a printed value is written with the first word of the value. -/
def opening (s : Compilation) : String :=
  match s.phase with
  | .printed => "printf(\"%.2f\\n\", (float)("
  | _ => ""

end Compilation

/-- The kinds of tokens that a phase can go on with. -/
def Phase.takes : Phase → Kind → Bool
  | .statement, .newline | .statement, .keyword _ => true
  | .printed, .string | .printed, .additive _ | .printed, .number | .printed, .ident => true
  | .signed _, .additive _ | .signed _, .number | .signed _, .ident => true
  | .operand _, .number | .operand _, .ident => true
  | .operator _, .additive _ | .operator _, .multiplicative _ => true
  | .operator .print, .newline | .operator .assign, .newline => true
  | .operator (.guard _ _), .comparison _ => true
  | .operator (.guard b true), .keyword k => k = .entry b
  | .labelName, .ident | .gotoName, .ident | .letName, .ident | .inputName, .ident => true
  | .equals, .equals => true
  | .labelled _, .newline | .lineEnd, .newline => true
  | _, _ => false

/-- The words `us` after `before` are written as `code`. It stands in the body of `c` between
`lead`, which is there when the first of them is written, and `trail`. -/
structure WrittenAs (c : CSource) (before us : List Word) (lead code trail : String) : Prop where
  body : c.body = lead ++ code ++ trail
  starts : ∃ s, Compilation.start.read before = .ok s ∧ lead = s.code.body ++ s.opening
  ends : ∃ m, Compilation.start.read (before ++ us) = .ok m ∧ m.code.body = lead ++ code

namespace Compilation
variable {s m r : Compilation} {p : Place} {t : Token} {us ws : List Word} {c : CSource}

theorem Extends.refl (s : Compilation) : s.Extends s := ⟨"", by simp⟩

theorem Extends.trans (h : s.Extends m) (h' : m.Extends r) : s.Extends r := by
  obtain ⟨a, ha⟩ := h
  obtain ⟨b, hb⟩ := h'
  exact ⟨a ++ b, by rw [hb, ha, String.append_assoc]⟩

theorem Extends.write (h : s.Extends m) (code : String) : s.Extends (m.write code) :=
  h.trans ⟨code, rfl⟩

theorem body_declare (name : String) : (s.declare name).code.body = s.code.body :=
  body_mentionAll [⟨.target, name⟩]

theorem extends_declare (name : String) : s.Extends (s.declare name) :=
  ⟨"", by rw [body_declare, String.append_empty]⟩

theorem extends_operand (h : s.operand p t = .ok m) : s.Extends m := by
  unfold operand at h
  split at h
  · cases h
    exact ⟨t.text, rfl⟩
  · split at h
    · cases h
      exact ⟨t.text, rfl⟩
    · cases h
  · cases h

theorem extends_signed (h : s.signed p t = .ok m) : s.Extends m := by
  unfold signed at h
  split at h
  · cases h
    exact ⟨t.text, rfl⟩
  · exact extends_operand h

theorem extends_printed (h : s.printed t = .ok m) : s.Extends m := by
  unfold printed at h
  split at h
  · cases h
    exact ⟨_, rfl⟩
  · exact ((Extends.refl s).write _).trans (extends_signed h)

theorem extends_leave (h : s.leave p t = .ok m) : s.Extends m := by
  unfold leave at h
  split at h
  case h_3 => cases h
  all_goals
    obtain ⟨-, rfl⟩ := expect_eq_ok_iff.mp h
    exact ⟨_, rfl⟩

theorem extends_operator (h : s.operator p t = .ok m) : s.Extends m := by
  unfold operator at h
  split at h
  case h_4 => exact extends_leave h
  all_goals
    cases h
    exact ⟨_, rfl⟩

theorem extends_begin (h : s.begin t = .ok m) : s.Extends m := by
  unfold begin at h
  split at h
  · cases h
    exact ⟨_, rfl⟩
  · split at h
    case h_8 => cases h
    case h_3 b _ =>
      cases h
      exact ⟨b.opening, rfl⟩
    all_goals
      cases h
      exact .refl s

theorem extends_accept (h : s.accept t = .ok m) : s.Extends m := by
  unfold accept at h
  split at h
  · exact extends_begin h
  · exact extends_printed h
  · exact extends_signed h
  · exact extends_operand h
  · exact extends_operator h
  · obtain ⟨-, rfl⟩ := expect_eq_ok_iff.mp h
    exact .refl s
  · obtain ⟨-, rfl⟩ := expect_eq_ok_iff.mp h
    exact ⟨_, rfl⟩
  · obtain ⟨-, rfl⟩ := expect_eq_ok_iff.mp h
    exact (extends_declare t.text).write _
  · obtain ⟨-, rfl⟩ := expect_eq_ok_iff.mp h
    exact .refl s
  · obtain ⟨-, rfl⟩ := expect_eq_ok_iff.mp h
    rw [input_eq]
    exact (extends_declare t.text).write _
  all_goals
    obtain ⟨-, rfl⟩ := expect_eq_ok_iff.mp h
    exact .refl s

theorem extends_settle (h : s.settle = .ok m) : s.Extends m := by
  unfold settle at h
  split at h
  · split at h
    · cases h
    · cases h
      exact ⟨_, rfl⟩
  · cases h
    exact .refl s

theorem extends_step (h : s.step t = .ok m) : s.Extends m := by
  obtain ⟨r, hsettle, haccept⟩ := bind_eq_ok.mp h
  exact (extends_settle hsettle).trans (extends_accept haccept)

theorem extends_read (h : s.read ws = .ok m) : s.Extends m := by
  induction ws generalizing s with
  | nil =>
    cases h
    exact .refl m
  | cons w ws ih =>
    obtain ⟨r, hstep, hread⟩ := read_cons_eq_ok.mp h
    exact (extends_step hstep).trans (ih hread)

theorem takes_of_begin (h : s.begin t = .ok m) : Phase.statement.takes t.kind := by
  unfold begin at h
  split at h
  · next hcloses =>
    unfold closes at hcloses
    split at hcloses
    · cases hcloses
    · rw [of_decide_eq_true hcloses]
      rfl
  · split at h
    case h_8 => cases h
    all_goals
      next hk =>
        rw [hk]
        rfl

theorem takes_of_operand (h : s.operand p t = .ok m) : (Phase.operand p).takes t.kind := by
  unfold operand at h
  split at h
  · next hk =>
    rw [hk]
    rfl
  · next hk =>
    rw [hk]
    rfl
  · cases h

theorem takes_of_signed (h : s.signed p t = .ok m) : (Phase.signed p).takes t.kind := by
  unfold signed at h
  split at h
  · next hk =>
    rw [hk]
    rfl
  · have hoperand := takes_of_operand h
    cases hk : t.kind with
    | number | ident => rfl
    | _ =>
      rw [hk] at hoperand
      cases hoperand

theorem takes_of_printed (h : s.printed t = .ok m) : Phase.printed.takes t.kind := by
  unfold printed at h
  split at h
  · next hk =>
    rw [hk]
    rfl
  · have hsigned := takes_of_signed h
    cases hk : t.kind with
    | number | ident | additive op => rfl
    | _ =>
      rw [hk] at hsigned
      cases hsigned

theorem takes_of_leave (h : s.leave p t = .ok m) : (Phase.operator p).takes t.kind := by
  unfold leave at h
  split at h
  · rw [(expect_eq_ok_iff.mp h).1]
    rfl
  · rw [(expect_eq_ok_iff.mp h).1]
    rfl
  · cases h
  · rw [(expect_eq_ok_iff.mp h).1]
    exact decide_eq_true rfl

theorem takes_of_operator (h : s.operator p t = .ok m) : (Phase.operator p).takes t.kind := by
  unfold operator at h
  split at h
  case h_4 => exact takes_of_leave h
  all_goals
    next hk => simp [Phase.takes, hk]

theorem takes_of_accept (h : s.accept t = .ok m) : s.phase.takes t.kind := by
  unfold accept at h
  split at h
  · next hs => exact hs ▸ takes_of_begin h
  · next hs => exact hs ▸ takes_of_printed h
  · next hs => exact hs ▸ takes_of_signed h
  · next hs => exact hs ▸ takes_of_operand h
  · next hs => exact hs ▸ takes_of_operator h
  all_goals
    next hs =>
      rw [hs, (expect_eq_ok_iff.mp h).1]
      rfl

/-- After a label no other token is accepted than the end of its line. -/
theorem accept_of_step (h : s.step t = .ok m) (ht : t.kind ≠ .newline) : s.accept t = .ok m := by
  obtain ⟨r, hsettle, haccept⟩ := bind_eq_ok.mp h
  rcases phase_of_settle hsettle with hline | rfl
  · rw [accept, hline] at haccept
    exact absurd (expect_eq_ok_iff.mp haccept).1 ht
  · exact haccept

theorem takes_of_step (h : s.step t = .ok m) (ht : t.kind ≠ .newline) : s.phase.takes t.kind :=
  takes_of_accept (accept_of_step h ht)

/-- The keyword of a statement is accepted only where a statement may start. -/
theorem headed_of_step {k : Keyword} (hk : s.headed k = some r)
    (h : s.step (.ofWord k.word) = .ok m) : s.phase = .statement ∧ m = r := by
  have htakes := takes_of_step h nofun
  have hs : s.phase = .statement := by
    cases hs : s.phase with
    | statement => rfl
    | operator p =>
      rw [hs] at htakes
      rcases p with _ | _ | ⟨b, _ | _⟩
      · cases htakes
      · cases htakes
      · cases htakes
      · obtain rfl : k = .entry b := of_decide_eq_true htakes
        cases hk
    | _ =>
      rw [hs] at htakes
      cases htakes
  exact ⟨hs, Except.ok.inj (h.symm.trans (step_headed hs hk))⟩

theorem Produces.extends (h : s.Produces ws c) : ∃ trail, c.body = s.code.body ++ trail := by
  obtain ⟨m, r, hread, hfinish, rfl⟩ := h
  obtain ⟨-, -, -, rfl⟩ := (finish_eq_ok_iff rfl).mp hfinish
  exact ((extends_read hread).write _).write _

theorem Produces.of_append (h : s.Produces (us ++ ws) c) :
    ∃ m, s.read us = .ok m ∧ m.Produces ws c := by
  obtain ⟨m, r, hread, hfinish, hc⟩ := h
  obtain ⟨m', hus, hws⟩ := read_append_eq_ok.mp hread
  exact ⟨m', hus, m, r, hws, hfinish, hc⟩

theorem Produces.of_cons {w : Word} (h : s.Produces (w :: ws) c) :
    ∃ m, s.step (.ofWord w) = .ok m ∧ m.Produces ws c := by
  have hsplit : s.Produces ([w] ++ ws) c := h
  obtain ⟨m, hread, hm⟩ := hsplit.of_append
  exact ⟨m, read_singleton.symm.trans hread, hm⟩

theorem Produces.finishes (h : s.Produces ws c) : s.Finishes ws := by
  obtain ⟨m, r, hread, hfinish, -⟩ := h
  obtain ⟨hphase, hblocks, -, -⟩ := (finish_eq_ok_iff rfl).mp hfinish
  exact ⟨m, hread, hphase, hblocks⟩

end Compilation

/-- The state in front of a token of an accepted program. -/
theorem exists_produces {source : String} {c : CSource} {ts : List Token} {before after : List Word}
    {w : Word} (h : compile source = .ok c) (hts : tokenize source = .ok ts)
    (hws : ts.map Token.word = before ++ w :: after) (hw : w ≠ eofWord) :
    ∃ s rest, Compilation.start.read before = .ok s ∧ after = rest ++ [eofWord] ∧
      s.Produces (w :: rest) c ∧ ∀ v ∈ before ++ w :: rest, v.Valid := by
  obtain ⟨ts', ws, hts', hws', haccepts⟩ := compile_eq_ok_iff.mp h
  obtain rfl : ts = ts' := Except.ok.inj (hts.symm.trans hts')
  have hvalid := valid_of_tokenize hts hws'
  rw [hws] at hws'
  rcases List.eq_nil_or_concat after with rfl | ⟨rest, v, rfl⟩
  · exact absurd (List.append_inj' hws' rfl).2 (by simpa using hw)
  · rw [List.concat_eq_append, ← List.cons_append, ← List.append_assoc] at hws'
    obtain ⟨rfl, hv⟩ := List.append_inj' hws' rfl
    obtain ⟨s, hs, hproduces⟩ := Compilation.Produces.of_append (s := .start) haccepts
    obtain rfl : v = eofWord := by simpa using hv
    exact ⟨s, rest, hs, List.concat_eq_append, hproduces, hvalid⟩

theorem writtenAs_of_read {before us : List Word} {s m : Compilation} {c : CSource}
    {code trail : String} (hs : Compilation.start.read before = .ok s) (hm : s.read us = .ok m)
    (hcode : m.code.body = s.code.body ++ s.opening ++ code)
    (hc : c.body = m.code.body ++ trail) :
    WrittenAs c before us (s.code.body ++ s.opening) code trail where
  body := by rw [hc, hcode]
  starts := ⟨s, hs, rfl⟩
  ends := ⟨m, (Compilation.read_append_of_ok hs).trans hm, hcode⟩

/-- The words tell where they are written and how. -/
theorem WrittenAs.unique {c : CSource} {before us : List Word}
    {lead code trail lead' code' trail' : String} (h : WrittenAs c before us lead code trail)
    (h' : WrittenAs c before us lead' code' trail') :
    lead = lead' ∧ code = code' ∧ trail = trail' := by
  obtain ⟨s, hs, rfl⟩ := h.starts
  obtain ⟨s', hs', rfl⟩ := h'.starts
  obtain rfl : s = s' := Except.ok.inj (hs.symm.trans hs')
  obtain ⟨m, hm, hcode⟩ := h.ends
  obtain ⟨m', hm', hcode'⟩ := h'.ends
  obtain rfl : m = m' := Except.ok.inj (hm.symm.trans hm')
  obtain rfl : code = code' := (String.append_right_inj _).mp (hcode.symm.trans hcode')
  exact ⟨rfl, rfl, (String.append_right_inj _).mp (h.body.symm.trans h'.body)⟩

end TeenyToC
