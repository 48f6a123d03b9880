import TeenyToC.Proofs.TokenList

/-! Words are what a program is accepted for. Lines are kept in tokens, in the labels and jumps
taken from them and in errors, and no step looks at them. So a list of tokens is accepted when the
list of its words is (`compile_eq_ok_iff`), and `read` is the run over words that the later modules
speak of. -/

namespace TeenyToC

def Token.ofWord (w : Word) : Token := ⟨w.1, w.2, 0⟩

def Token.unlined (t : Token) : Token := .ofWord t.word

def Phase.unlined : Phase → Phase
  | .labelled name => .labelled name.unlined
  | p => p

def ParseError.unlined (e : ParseError) : ParseError := { e with line := 0 }

namespace Compilation

def unlined (s : Compilation) : Compilation :=
  { s with phase := s.phase.unlined, jumps := s.jumps.map Token.unlined }

def unlinedResult (r : Except ParseError Compilation) : Except ParseError Compilation :=
  (r.mapError ParseError.unlined).map unlined

variable (s : Compilation) (t : Token)

@[simp] theorem unlinedResult_ok : unlinedResult (.ok s) = .ok s.unlined := rfl

@[simp] theorem unlinedResult_fail (fault : ParseFault) :
    unlinedResult (fail t fault) = fail t.unlined fault := rfl

theorem expect_unlined (wanted : Kind) :
    unlinedResult (expect t wanted s) = expect t.unlined wanted s.unlined := by
  unfold expect
  exact apply_ite unlinedResult _ _ _

theorem declare_unlined (name : String) : (s.declare name).unlined = s.unlined.declare name :=
  apply_ite unlined _ _ _

theorem begin_unlined : unlinedResult (s.begin t) = s.unlined.begin t.unlined := by
  obtain ⟨kind, text, line⟩ := t
  refine (apply_ite unlinedResult _ _ _).trans (congrArg (ite _ _) ?_)
  cases kind with
  | keyword k => cases k <;> rfl
  | _ => rfl

theorem operand_unlined (p : Place) :
    unlinedResult (s.operand p t) = s.unlined.operand p t.unlined := by
  obtain ⟨kind, text, line⟩ := t
  cases kind with
  | ident => exact apply_ite unlinedResult _ _ _
  | _ => rfl

theorem signed_unlined (p : Place) :
    unlinedResult (s.signed p t) = s.unlined.signed p t.unlined := by
  have hoperand := operand_unlined s t p
  obtain ⟨kind, text, line⟩ := t
  cases kind with
  | additive op => rfl
  | _ => exact hoperand

theorem printed_unlined : unlinedResult (s.printed t) = s.unlined.printed t.unlined :=
  (apply_ite unlinedResult _ _ _).trans (congrArg (ite _ _) (signed_unlined _ t .print))

theorem leave_unlined (p : Place) :
    unlinedResult (s.leave p t) = s.unlined.leave p t.unlined := by
  match p with
  | .print => exact expect_unlined _ t .newline
  | .assign => exact expect_unlined _ t .newline
  | .guard _ false => rfl
  | .guard b true => exact expect_unlined _ t (.keyword (.entry b))

theorem operator_unlined (p : Place) :
    unlinedResult (s.operator p t) = s.unlined.operator p t.unlined := by
  have hleave := leave_unlined s t p
  obtain ⟨kind, text, line⟩ := t
  cases p <;> cases kind <;> first | rfl | exact hleave

theorem input_unlined (name : String) : (s.input name).unlined = s.unlined.input name := by
  unfold input
  rw [← declare_unlined]
  rfl

theorem settle_unlined : unlinedResult s.settle = s.unlined.settle := by
  obtain ⟨phase, blocks, declared, labels, jumps, code⟩ := s
  cases phase with
  | labelled name => exact apply_ite unlinedResult _ _ _
  | _ => rfl

theorem accept_unlined : unlinedResult (s.accept t) = s.unlined.accept t.unlined := by
  obtain ⟨phase, blocks, declared, labels, jumps, code⟩ := s
  cases phase with
  | statement => exact begin_unlined _ t
  | printed => exact printed_unlined _ t
  | signed p => exact signed_unlined _ t p
  | operand p => exact operand_unlined _ t p
  | operator p => exact operator_unlined _ t p
  | labelName | gotoName | equals | labelled | lineEnd => exact expect_unlined _ t _
  | letName =>
    exact (expect_unlined _ t _).trans (congrArg
      (fun d => expect t.unlined .ident ((d.write (t.text ++ " = ")).await .equals))
      (declare_unlined _ t.text))
  | inputName =>
    exact (expect_unlined _ t _).trans (congrArg
      (fun d => expect t.unlined .ident (d.await .lineEnd)) (input_unlined _ t.text))

theorem step_unlined : unlinedResult (s.step t) = s.unlined.step t.unlined := by
  unfold step
  rw [← settle_unlined]
  cases s.settle with
  | error e => rfl
  | ok s => exact accept_unlined s t

theorem unresolved?_unlined : s.unlined.unresolved? = s.unresolved?.map Token.unlined := by
  unfold unresolved?
  have hjumps : s.unlined.jumps.reverse = s.jumps.reverse.map Token.unlined :=
    List.map_reverse.symm
  rw [hjumps, List.find?_map]
  rfl

theorem finish_unlined : unlinedResult (s.finish t) = s.unlined.finish t.unlined := by
  unfold finish
  rw [← settle_unlined]
  cases s.settle with
  | error e => rfl
  | ok s =>
    have haccept := accept_unlined s t
    have hjumps := unresolved?_unlined s
    obtain ⟨phase, blocks, declared, labels, jumps, code⟩ := s
    cases phase with
    | statement =>
      cases blocks with
      | cons b blocks => rfl
      | nil =>
        cases hfind : unresolved? ⟨.statement, [], declared, labels, jumps, code⟩ with
        | none =>
          rw [hfind] at hjumps
          simp only [bind, Except.bind, hfind, unlinedResult_ok, hjumps]
          rfl
        | some jump =>
          rw [hfind] at hjumps
          simp only [bind, Except.bind, hfind, unlinedResult_ok, hjumps]
          rfl
    | _ => exact haccept

theorem through_unlined (ts : List Token) :
    unlinedResult (s.through ts) = s.unlined.through (ts.map Token.unlined) := by
  induction ts generalizing s with
  | nil => rfl
  | cons t ts ih =>
    by_cases ht : t.kind = .eof
    · rw [List.map_cons, through_of_eof ht, through_of_eof (by exact ht)]
      exact finish_unlined s t
    · rw [List.map_cons, through_of_ne_eof ht, through_of_ne_eof (by exact ht), ← step_unlined]
      cases s.step t with
      | error e => rfl
      | ok s => exact ih s

end Compilation

/-! The run over words is the one over tokens that all stand on line 0. -/

namespace Compilation

def read (s : Compilation) (ws : List Word) : Except ParseError Compilation :=
  s.feed (ws.map Token.ofWord)

variable {s s' : Compilation} {w : Word} {us ws : List Word} {eof : Token}

@[simp] theorem read_nil : s.read [] = .ok s := rfl

theorem read_cons : s.read (w :: ws) = s.step (.ofWord w) >>= fun s => s.read ws := by
  simp only [read, feed, List.map_cons, List.foldlM_cons]

theorem read_cons_of_ok (h : s.step (.ofWord w) = .ok s') : s.read (w :: ws) = s'.read ws := by
  rw [read_cons, h]
  rfl

theorem read_singleton : s.read [w] = s.step (.ofWord w) := by
  rw [read_cons]
  cases s.step (.ofWord w) <;> rfl

theorem read_append : s.read (us ++ ws) = s.read us >>= fun s => s.read ws := by
  simp only [read, feed, List.map_append, List.foldlM_append]

theorem read_append_of_ok (h : s.read us = .ok s') : s.read (us ++ ws) = s'.read ws := by
  rw [read_append, h]
  rfl

theorem read_append_eq_ok :
    s.read (us ++ ws) = .ok s' ↔ ∃ m, s.read us = .ok m ∧ m.read ws = .ok s' := by
  rw [read_append]
  exact bind_eq_ok

theorem read_cons_eq_ok :
    s.read (w :: ws) = .ok s' ↔ ∃ m, s.step (.ofWord w) = .ok m ∧ m.read ws = .ok s' := by
  rw [read_cons]
  exact bind_eq_ok

theorem feed_concat {us : List Token} {t : Token} {m : Compilation}
    (h : s.feed (us ++ [t]) = .ok m) : ∃ r, s.feed us = .ok r ∧ r.step t = .ok m := by
  rw [feed, List.foldlM_append] at h
  obtain ⟨r, hus, hstep⟩ := bind_eq_ok.mp h
  refine ⟨r, hus, ?_⟩
  rw [List.foldlM_cons] at hstep
  obtain ⟨m', hm, hnil⟩ := bind_eq_ok.mp hstep
  cases hnil
  exact hm

theorem feed_unlined (us : List Token) :
    unlinedResult (s.feed us) = s.unlined.read (us.map Token.word) := by
  induction us generalizing s with
  | nil => rfl
  | cons u us ih =>
    rw [feed, List.foldlM_cons, List.map_cons, read_cons]
    change _ = s.unlined.step u.unlined >>= _
    rw [← step_unlined]
    cases s.step u with
    | error e => rfl
    | ok s => exact ih

theorem read_words {us : List Token} {m : Compilation} (h : s.feed us = .ok m) :
    s.unlined.read (us.map Token.word) = .ok m.unlined := by
  rw [← feed_unlined, h]
  rfl

theorem settle_of_not_labelled (h : ∀ name, s.phase ≠ .labelled name) : s.settle = .ok s := by
  unfold settle
  split
  · next name hname => exact absurd hname (h name)
  · rfl

theorem expect_eq_ok_iff {t : Token} {wanted : Kind} :
    expect t wanted s = .ok s' ↔ t.kind = wanted ∧ s = s' := by
  unfold expect
  split <;> simp_all [fail]

/-- Only between two statements may a program end. -/
theorem accept_eof_ne_ok (heof : eof.kind = .eof) (h : s.phase ≠ .statement) :
    s.accept eof ≠ .ok s' := by
  unfold accept
  split
  · next hp => exact absurd hp h
  · simp [printed, signed, operand, heof, fail]
  · simp [signed, operand, heof, fail]
  · simp [operand, heof, fail]
  · next p _ =>
    rcases p with _ | _ | ⟨b, _ | _⟩ <;> simp [operator, leave, expect, heof, fail]
  all_goals simp [expect, heof, fail]

theorem phase_of_settle (h : s.settle = .ok s') : s'.phase = .lineEnd ∨ s' = s := by
  unfold settle at h
  split at h
  · split at h
    · cases h
    · cases h
      exact .inl rfl
  · cases h
    exact .inr rfl

theorem finish_eq_ok_iff (heof : eof.kind = .eof) :
    s.finish eof = .ok s' ↔ s.phase = .statement ∧ s.blocks = [] ∧
      (∀ jump ∈ s.jumps, jump.text ∈ s.labels) ∧
        s' = (s.writeLine "return 0;").writeLine "\x7d" := by
  have hfind : s.unresolved? = none ↔ ∀ jump ∈ s.jumps, jump.text ∈ s.labels := by
    simp [unresolved?]
  constructor
  · intro h
    obtain ⟨m, hm, hmatch⟩ := bind_eq_ok.mp h
    split at hmatch
    · next hp hb =>
      rcases phase_of_settle hm with hline | rfl
      · rw [hp] at hline
        cases hline
      split at hmatch
      · cases hmatch
      · next hnone =>
        cases hmatch
        exact ⟨hp, hb, hfind.mp hnone, rfl⟩
    · cases hmatch
    · next hp hp' =>
      -- Elsewhere the end of the text is taken as a token, which no phase but the first accepts.
      refine absurd hmatch (accept_eof_ne_ok heof fun hstatement => ?_)
      rcases hb : m.blocks with _ | ⟨b, bs⟩
      · exact hp hstatement hb
      · exact hp' b bs hstatement hb
  · intro h
    obtain ⟨hp, hb, hjumps, rfl⟩ := h
    have hsettle : s.settle = .ok s := settle_of_not_labelled (by simp [hp])
    rw [finish, hsettle]
    simp only [bind, Except.bind, hp, hb, hfind.mpr hjumps]

end Compilation

/-- The words before the end of the text are read, and the program may end there. -/
def Accepts (ws : List Word) (c : CSource) : Prop :=
  ∃ s s', Compilation.start.read ws = .ok s ∧ s.finish (.ofWord eofWord) = .ok s' ∧ s'.code = c

theorem accepts_iff_through {ws : List Word} {c : CSource} (h : ∀ w ∈ ws, w.1 ≠ .eof) :
    Accepts ws c ↔ ∃ s, Compilation.start.through ((ws ++ [eofWord]).map Token.ofWord) = .ok s ∧
      s.code = c := by
  have hne : ∀ t ∈ ws.map Token.ofWord, t.kind ≠ .eof := by
    intro t ht
    obtain ⟨w, hw, rfl⟩ := List.mem_map.mp ht
    exact h w hw
  rw [List.map_append, Compilation.through_append hne]
  simp only [bind_eq_ok]
  constructor
  · intro h
    obtain ⟨s, s', hread, hfinish, hc⟩ := h
    exact ⟨s', ⟨s, hread, (Compilation.through_of_eof rfl).trans hfinish⟩, hc⟩
  · intro h
    obtain ⟨s', ⟨s, hread, hthrough⟩, hc⟩ := h
    exact ⟨s, s', hread, (Compilation.through_of_eof rfl).symm.trans hthrough, hc⟩

theorem through_words {ts : List Token} {c : CSource} :
    (∃ s, Compilation.start.through ((ts.map Token.word).map Token.ofWord) = .ok s ∧ s.code = c) ↔
      ∃ s, Compilation.start.through ts = .ok s ∧ s.code = c := by
  have hunlined : Compilation.start.through ((ts.map Token.word).map Token.ofWord) =
      Compilation.unlinedResult (Compilation.start.through ts) := by
    rw [Compilation.through_unlined, List.map_map]
    rfl
  rw [hunlined]
  cases Compilation.start.through ts with
  | error e =>
    change (∃ s : Compilation, (Except.error e.unlined : Except ParseError Compilation) = .ok s ∧
      s.code = c) ↔ _
    simp
  | ok s => simp [Compilation.unlined]

theorem compile_eq_ok_iff {source : String} {c : CSource} :
    compile source = .ok c ↔ ∃ ts ws, tokenize source = .ok ts ∧
      ts.map Token.word = ws ++ [eofWord] ∧ Accepts ws c := by
  cases htokens : tokenize source with
  | error e => simp [compile_ne_ok htokens c]
  | ok ts =>
    obtain ⟨us, eof, rfl, heof, hvalid⟩ := tokenize_eq_append htokens
    have hne : ∀ w ∈ us.map Token.word, w.1 ≠ .eof := by
      intro w hw
      obtain ⟨t, ht, rfl⟩ := List.mem_map.mp hw
      exact (hvalid t ht).ne_eof
    have hcompile : compile source = .ok c ↔
        ∃ s, Compilation.start.through (us ++ [eof]) = .ok s ∧ s.code = c := by
      rw [compile_of_tokenize htokens]
      cases Compilation.start.through (us ++ [eof]) with
      | error e =>
        change Except.error (CompileError.parse e) = .ok c ↔ _
        simp
      | ok s =>
        change Except.ok s.code = .ok c ↔ _
        simp
    rw [hcompile, ← through_words, List.map_append, List.map_singleton, heof,
      ← accepts_iff_through hne]
    constructor
    · intro haccepts
      exact ⟨us ++ [eof], us.map Token.word, rfl, by simp [heof], haccepts⟩
    · intro h
      obtain ⟨_, ws, hts, hws, haccepts⟩ := h
      cases hts
      rw [List.map_append, List.map_singleton, heof] at hws
      rwa [List.append_cancel_right hws]

end TeenyToC
