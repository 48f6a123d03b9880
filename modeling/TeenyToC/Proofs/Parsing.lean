import TeenyToC.Proofs.Reading

/-! Whatever is read up to the end of a program has a tree (`parses_of_finishes`). A phase tells
which words can come next, so the tree is found from the front: each lemma takes from the words
what its phase awaits and leaves the rest to the phase after it. -/

namespace TeenyToC

/-- The text of a kind that has only one. -/
def Kind.text? : Kind → Option String
  | .newline => some "\n"
  | .keyword k => some k.spelling
  | .equals => some "="
  | .additive op => some op.symbol
  | .multiplicative op => some op.symbol
  | .comparison op => some op.symbol
  | .eof | .number | .ident | .string => none

theorem Kind.eq_of_text? {k : Kind} {cs : List Char} {text : String} (h : k.admits cs)
    (htext : k.text? = some text) : cs = text.toList := by
  cases k with
  | eof | number | ident | string => cases htext
  | _ =>
    cases htext
    exact of_decide_eq_true h

theorem Word.Valid.eq_of_text? {w : Word} {k : Kind} {text : String} (hw : w.Valid)
    (hk : w.1 = k) (htext : k.text? = some text) : w = (k, text) := by
  have htext' : w.2.toList = text.toList := Kind.eq_of_text? hw.admits (hk ▸ htext)
  exact Prod.ext hk (String.toList_inj.mp htext')

namespace Chain
variable {ω α : Type}

def cons (a : α) (o : ω) (c : Chain ω α) : Chain ω α := ⟨a, (o, c.first) :: c.rest⟩

theorem words_cons (op : ω → Word) (item : α → List Word) (a : α) (o : ω) (c : Chain ω α) :
    (c.cons a o).words op item = item a ++ op o :: c.words op item := by
  simp [cons, words]

end Chain

namespace Expression

def ofFactor (f : Factor) : Expression := ⟨⟨f, []⟩, []⟩

/-- The factor is one more factor of the first term. -/
def times (f : Factor) (o : Multiplicative) (e : Expression) : Expression :=
  ⟨e.first.cons f o, e.rest⟩

/-- The factor is a term by itself. -/
def plus (f : Factor) (o : Additive) (e : Expression) : Expression := e.cons ⟨f, []⟩ o

theorem words_ofFactor (f : Factor) : (ofFactor f).words = f.words := by
  simp [ofFactor, words, Term.words, Chain.words]

theorem words_times (f : Factor) (o : Multiplicative) (e : Expression) :
    (times f o e).words = f.words ++ o.word :: e.words := by
  simp [times, words, Term.words, Chain.words, Chain.cons]

theorem words_plus (f : Factor) (o : Additive) (e : Expression) :
    (plus f o e).words = f.words ++ o.word :: e.words := by
  simp [plus, words, Term.words, Chain.words, Chain.cons]

end Expression

namespace Program.Parses
variable {p rest : Program} {us ws : List Word}

theorem nil : Program.empty.Parses [] := ⟨0, [], rfl, .empty⟩

theorem newline (h : p.Parses ws) : p.Parses (newlineWord :: ws) := by
  obtain ⟨n, us, rfl, hy⟩ := h
  exact ⟨n + 1, us, rfl, hy⟩

theorem simple (st : Simple) (h : rest.Parses ws) :
    (Program.simple st rest).Parses (st.words ++ newlineWord :: ws) := by
  obtain ⟨n, us, rfl, hy⟩ := h
  exact ⟨0, st.words ++ newlineWord :: newlines n ++ us, by simp [newlines], .simple n hy⟩

theorem block (b : Block) (c : Condition) (hbody : p.Parses us) (hrest : rest.Parses ws) :
    (Program.block b c p rest).Parses (Keyword.word (.head b) :: c.words ++
      Keyword.word (.entry b) :: newlineWord :: (us ++ Keyword.word (.close b) ::
        newlineWord :: ws)) := by
  obtain ⟨m, vs, rfl, hy⟩ := hbody
  obtain ⟨n, xs, rfl, hy'⟩ := hrest
  exact ⟨0, _, by simp [newlines], .block m n hy hy'⟩

end Program.Parses

namespace Compilation
variable {s m : Compilation} {p : Place} {w : Word} {us ws : List Word}

/-- A program may end after these words. -/
def Finishes (s : Compilation) (ws : List Word) : Prop :=
  ∃ s', s.read ws = .ok s' ∧ s'.phase = .statement ∧ s'.blocks = []

theorem Finishes.of_append (h : s.Finishes (us ++ ws)) :
    ∃ m, s.read us = .ok m ∧ m.Finishes ws := by
  obtain ⟨s', hread, hend⟩ := h
  obtain ⟨m, hus, hws⟩ := read_append_eq_ok.mp hread
  exact ⟨m, hus, s', hws, hend⟩

theorem Finishes.next (h : s.Finishes ws) (hs : s.phase ≠ .statement) :
    ∃ w rest m, ws = w :: rest ∧ s.step (.ofWord w) = .ok m ∧ m.Finishes rest := by
  obtain ⟨s', hread, hphase, hblocks⟩ := h
  cases ws with
  | nil =>
    cases hread
    exact absurd hphase hs
  | cons w ws =>
    obtain ⟨m, hstep, hread⟩ := read_cons_eq_ok.mp hread
    exact ⟨w, ws, m, rfl, hstep, s', hread, hphase, hblocks⟩

theorem operand_inv (h : s.operand p (.ofWord w) = .ok m) :
    ∃ o : Operand, w = o.word ∧ m.phase = .operator p := by
  obtain ⟨kind, text⟩ := w
  unfold operand at h
  split at h
  · next hk =>
    cases h
    exact ⟨.number text, Prod.ext hk rfl, rfl⟩
  · next hk =>
    split at h
    · cases h
      exact ⟨.name text, Prod.ext hk rfl, rfl⟩
    · cases h
  · cases h

theorem read_factor_inv (hs : s.phase = .signed p) (h : s.Finishes ws)
    (hvalid : ∀ w ∈ ws, w.Valid) : ∃ (f : Factor) (rest : List Word) (m : Compilation),
      ws = f.words ++ rest ∧ m.phase = .operator p ∧ m.Finishes rest := by
  obtain ⟨w, rest, m, rfl, hstep, hrest⟩ := h.next (by simp [hs])
  rw [step_signed hs] at hstep
  obtain ⟨hw, hvalid⟩ := List.forall_mem_cons.mp hvalid
  unfold signed at hstep
  split at hstep
  · next op hk =>
    cases hstep
    obtain rfl : w = op.word := hw.eq_of_text? hk rfl
    obtain ⟨v, rest, m, rfl, hstep, hend⟩ := hrest.next (by exact nofun)
    obtain ⟨o, rfl, hm⟩ := operand_inv ((step_operand rfl).symm.trans hstep)
    exact ⟨⟨some op, o⟩, rest, m, rfl, hm, hend⟩
  · obtain ⟨o, rfl, hm⟩ := operand_inv hstep
    exact ⟨⟨none, o⟩, rest, m, rfl, hm, hrest⟩

/-- What stands right after an expression, and what is awaited then. -/
inductive Follows : Place → Word → Phase → Prop where
  | print : Follows .print newlineWord .statement
  | assign : Follows .assign newlineWord .statement
  | comparison (b : Block) (compared : Bool) (o : Comparison) :
      Follows (.guard b compared) o.word (.signed (.guard b true))
  | entry (b : Block) : Follows (.guard b true) (Keyword.word (.entry b)) .lineEnd

theorem leave_inv (hw : w.Valid) (h : s.leave p (.ofWord w) = .ok m) : Follows p w m.phase := by
  unfold leave at h
  split at h
  · obtain ⟨hk, rfl⟩ := expect_eq_ok_iff.mp h
    obtain rfl : w = newlineWord := hw.eq_of_text? hk rfl
    exact .print
  · obtain ⟨hk, rfl⟩ := expect_eq_ok_iff.mp h
    obtain rfl : w = newlineWord := hw.eq_of_text? hk rfl
    exact .assign
  · cases h
  · next b =>
    obtain ⟨hk, rfl⟩ := expect_eq_ok_iff.mp h
    obtain rfl : w = Keyword.word (.entry b) := hw.eq_of_text? hk rfl
    exact .entry b

theorem operator_inv (hw : w.Valid) (h : s.operator p (.ofWord w) = .ok m) :
    (∃ o : Additive, w = o.word ∧ m.phase = .signed p) ∨
      (∃ o : Multiplicative, w = o.word ∧ m.phase = .signed p) ∨ Follows p w m.phase := by
  unfold operator at h
  split at h
  · next o hk =>
    cases h
    exact .inl ⟨o, hw.eq_of_text? hk rfl, rfl⟩
  · next o hk =>
    cases h
    exact .inr (.inl ⟨o, hw.eq_of_text? hk rfl, rfl⟩)
  · next b compared o hk =>
    cases h
    obtain rfl : w = o.word := hw.eq_of_text? hk rfl
    exact .inr (.inr (.comparison b compared o))
  · exact .inr (.inr (leave_inv hw h))

/-- An expression is as long as it can be. -/
theorem read_expression_inv (hs : s.phase = .signed p) (h : s.Finishes ws)
    (hvalid : ∀ w ∈ ws, w.Valid) :
    ∃ (e : Expression) (w : Word) (rest : List Word) (m : Compilation),
      ws = e.words ++ w :: rest ∧ Follows p w m.phase ∧ m.Finishes rest := by
  induction hn : ws.length using Nat.strongRecOn generalizing s ws with
  | ind n ih =>
    obtain ⟨f, us, r, rfl, hr, hus⟩ := read_factor_inv hs h hvalid
    obtain ⟨w, rest, m, rfl, hstep, hrest⟩ := hus.next (by simp [hr])
    rw [step_operator hr] at hstep
    obtain ⟨hw, hvalid'⟩ := List.forall_mem_cons.mp (List.forall_mem_append.mp hvalid).2
    have hlength : rest.length < n := by
      simp at hn
      omega
    rcases operator_inv hw hstep with ⟨o, rfl, hm⟩ | ⟨o, rfl, hm⟩ | hfollows
    · obtain ⟨e, w', rest', m', rfl, hend⟩ := ih _ hlength hm hrest hvalid' rfl
      exact ⟨.plus f o e, w', rest', m', by simp [Expression.words_plus], hend⟩
    · obtain ⟨e, w', rest', m', rfl, hend⟩ := ih _ hlength hm hrest hvalid' rfl
      exact ⟨.times f o e, w', rest', m', by simp [Expression.words_times], hend⟩
    · exact ⟨.ofFactor f, w, rest, m, by simp [Expression.words_ofFactor], hfollows, hrest⟩

theorem read_comparisons_inv {b : Block} (hs : s.phase = .signed (.guard b true))
    (h : s.Finishes ws) (hvalid : ∀ w ∈ ws, w.Valid) :
    ∃ (c : Chain Comparison Expression) (rest : List Word) (m : Compilation),
      ws = c.words Comparison.word Expression.words ++ Keyword.word (.entry b) :: rest ∧
        m.phase = .lineEnd ∧ m.Finishes rest := by
  induction hn : ws.length using Nat.strongRecOn generalizing s ws with
  | ind n ih =>
    obtain ⟨e, w, rest, m, rfl, hfollows, hrest⟩ := read_expression_inv hs h hvalid
    have hvalid' := (List.forall_mem_cons.mp (List.forall_mem_append.mp hvalid).2).2
    have hlength : rest.length < n := by
      simp at hn
      omega
    generalize hm : m.phase = phase at hfollows
    cases hfollows with
    | comparison _ _ o =>
      obtain ⟨c, rest', m', rfl, hend⟩ := ih _ hlength hm hrest hvalid' rfl
      exact ⟨c.cons e o, rest', m', by simp [Chain.words_cons], hend⟩
    | entry => exact ⟨⟨e, []⟩, rest, m, by simp [Chain.words], hm, hrest⟩

theorem read_condition_inv {b : Block} (hs : s.phase = .signed (.guard b false))
    (h : s.Finishes ws) (hvalid : ∀ w ∈ ws, w.Valid) :
    ∃ (c : Condition) (rest : List Word) (m : Compilation),
      ws = c.words ++ Keyword.word (.entry b) :: rest ∧ m.phase = .lineEnd ∧ m.Finishes rest := by
  obtain ⟨e, w, rest, m, rfl, hfollows, hrest⟩ := read_expression_inv hs h hvalid
  have hvalid' := (List.forall_mem_cons.mp (List.forall_mem_append.mp hvalid).2).2
  generalize hm : m.phase = phase at hfollows
  cases hfollows with
  | comparison _ _ o =>
    obtain ⟨c, rest', m', rfl, hend⟩ := read_comparisons_inv hm hrest hvalid'
    refine ⟨⟨c.cons e o, List.cons_ne_nil _ _⟩, rest', m', ?_, hend⟩
    simp [Condition.words, Chain.words_cons]

theorem read_newline_inv (hs : s.phase = .lineEnd ∨ ∃ name, s.phase = .labelled name)
    (h : s.Finishes ws) (hvalid : ∀ w ∈ ws, w.Valid) : ∃ rest, ws = newlineWord :: rest := by
  obtain ⟨w, rest, m, rfl, hstep, -⟩ := h.next (by grind)
  obtain ⟨r, hsettle, haccept⟩ := bind_eq_ok.mp hstep
  have hr : r.phase = .lineEnd ∨ ∃ name, r.phase = .labelled name := by
    rcases phase_of_settle hsettle with hr | rfl
    · exact .inl hr
    · exact hs
  have hk : w.1 = .newline := by
    unfold accept at haccept
    rcases hr with hr | ⟨name, hr⟩ <;> rw [hr] at haccept <;>
      exact (expect_eq_ok_iff.mp haccept).1
  have hw := (List.forall_mem_cons.mp hvalid).1
  obtain rfl : w = newlineWord := hw.eq_of_text? hk rfl
  exact ⟨rest, rfl⟩

theorem read_name_inv {f : Token → Compilation} (hs : s.phase ≠ .statement)
    (hstep : ∀ t, s.step t = expect t .ident (f t)) (h : s.Finishes ws) :
    ∃ name rest, ws = nameWord name :: rest ∧ (f (.ofWord (nameWord name))).Finishes rest := by
  obtain ⟨⟨kind, name⟩, rest, m, rfl, hname, hrest⟩ := h.next hs
  obtain ⟨hk, rfl⟩ := expect_eq_ok_iff.mp ((hstep _).symm.trans hname)
  obtain rfl : kind = .ident := hk
  exact ⟨name, rest, rfl, hrest⟩

theorem begin_inv (hw : w.Valid) (h : s.begin (.ofWord w) = .ok m) :
    (w = newlineWord ∧ m = s) ∨
      (∃ b bs, s.blocks = b :: bs ∧ w = Keyword.word (.close b) ∧ m.phase = .lineEnd) ∨
      ∃ k, w = Keyword.word k ∧ s.headed k = some m := by
  unfold begin at h
  split at h
  · next hcloses =>
    cases h
    refine .inr (.inl ?_)
    unfold closes at hcloses
    split at hcloses
    · cases hcloses
    · next b bs hb => exact ⟨b, bs, hb, hw.eq_of_text? (of_decide_eq_true hcloses) rfl, rfl⟩
  · split at h
    case h_8 => cases h
    case h_1 hk =>
      cases h
      exact .inl ⟨hw.eq_of_text? hk rfl, rfl⟩
    all_goals
      next hk =>
        cases h
        exact .inr (.inr ⟨_, hw.eq_of_text? hk rfl, rfl⟩)

theorem read_printed_inv (hs : s.phase = .printed) (h : s.Finishes ws)
    (hvalid : ∀ w ∈ ws, w.Valid) : ∃ (st : Simple) (rest : List Word),
      Keyword.word .print :: ws = st.words ++ newlineWord :: rest := by
  obtain ⟨⟨kind, text⟩, us, m, rfl, hstep, hus⟩ := h.next (by simp [hs])
  by_cases hk : kind = .string
  · subst hk
    rw [step_string hs] at hstep
    cases hstep
    obtain ⟨rest, rfl⟩ := read_newline_inv (.inl rfl) hus (List.forall_mem_cons.mp hvalid).2
    exact ⟨.printText text, rest, rfl⟩
  · rw [Finishes, read_printed_cons hs hk] at h
    obtain ⟨e, v, rest, m, he, hfollows, -⟩ := read_expression_inv rfl h hvalid
    generalize m.phase = phase at hfollows
    cases hfollows
    exact ⟨.printValue e, rest, congrArg (_ :: ·) he⟩

/-- What stands after the keyword of a statement, up to the end of its line or of its head. -/
theorem read_headed_inv {k : Keyword} (hk : s.headed k = some m) (h : m.Finishes ws)
    (hvalid : ∀ w ∈ ws, w.Valid) :
    (∃ (st : Simple) (rest : List Word), k.word :: ws = st.words ++ newlineWord :: rest) ∨
      ∃ (b : Block) (c : Condition) (rest : List Word),
        k.word :: ws =
          Keyword.word (.head b) :: c.words ++ Keyword.word (.entry b) :: newlineWord :: rest := by
  cases k with
  | entry b => cases hk
  | close b => cases hk
  | print =>
    cases hk
    exact .inl (read_printed_inv rfl h hvalid)
  | head b =>
    cases hk
    obtain ⟨c, us, r, rfl, hr, hus⟩ := read_condition_inv rfl h hvalid
    have hvalid' := (List.forall_mem_cons.mp (List.forall_mem_append.mp hvalid).2).2
    obtain ⟨rest, rfl⟩ := read_newline_inv (.inl hr) hus hvalid'
    exact .inr ⟨b, c, rest, rfl⟩
  | label =>
    cases hk
    obtain ⟨name, us, rfl, hus⟩ := read_name_inv (by exact nofun) (fun t => step_labelName rfl) h
    obtain ⟨rest, rfl⟩ := read_newline_inv (.inr ⟨_, rfl⟩) hus (List.forall_mem_cons.mp hvalid).2
    exact .inl ⟨.label name, rest, rfl⟩
  | goto =>
    cases hk
    obtain ⟨name, us, rfl, hus⟩ := read_name_inv (by exact nofun) (fun t => step_gotoName rfl) h
    obtain ⟨rest, rfl⟩ := read_newline_inv (.inl rfl) hus (List.forall_mem_cons.mp hvalid).2
    exact .inl ⟨.goto name, rest, rfl⟩
  | input =>
    cases hk
    obtain ⟨name, us, rfl, hus⟩ := read_name_inv (by exact nofun) (fun t => step_inputName rfl) h
    obtain ⟨rest, rfl⟩ := read_newline_inv (.inl rfl) hus (List.forall_mem_cons.mp hvalid).2
    exact .inl ⟨.input name, rest, rfl⟩
  | assign =>
    cases hk
    obtain ⟨name, us, rfl, hus⟩ := read_name_inv (by exact nofun) (fun t => step_letName rfl) h
    obtain ⟨w, vs, m, rfl, hstep, hvs⟩ := hus.next (by exact nofun)
    obtain ⟨hk, rfl⟩ := expect_eq_ok_iff.mp ((step_equals rfl).symm.trans hstep)
    obtain ⟨hw, hvalid'⟩ := List.forall_mem_cons.mp (List.forall_mem_cons.mp hvalid).2
    obtain rfl : w = (.equals, "=") := hw.eq_of_text? hk rfl
    obtain ⟨e, v, rest, r, rfl, hfollows, -⟩ := read_expression_inv rfl hvs hvalid'
    generalize r.phase = phase at hfollows
    cases hfollows
    exact .inl ⟨.assign name e, rest, rfl⟩

theorem Finishes.after_simple {st : Simple} (hs : s.phase = .statement)
    (h : s.Finishes (st.words ++ newlineWord :: ws)) :
    ∃ m : Compilation, m.phase = .statement ∧ m.blocks = s.blocks ∧ m.Finishes ws := by
  have hwords : st.words ++ newlineWord :: ws = (st.words ++ [newlineWord]) ++ ws := by simp
  rw [hwords] at h
  obtain ⟨m, hst, hrest⟩ := h.of_append
  obtain ⟨-, rfl⟩ := (read_simple hs st).mp hst
  refine ⟨_, ?_, ?_, hrest⟩
  · exact (phase_mentionAll st.mentions).trans hs
  · exact blocks_mentionAll st.mentions

theorem Finishes.after_head {b : Block} {c : Condition} (hs : s.phase = .statement)
    (h : s.Finishes
      (Keyword.word (.head b) :: c.words ++ Keyword.word (.entry b) :: newlineWord :: ws)) :
    ∃ m : Compilation, m.phase = .statement ∧ m.blocks = b :: s.blocks ∧ m.Finishes ws := by
  obtain ⟨s', hread, hend⟩ := h
  obtain ⟨-, hrest⟩ := (read_head hs b c 0 ws).mp (by simpa [newlines] using hread)
  refine ⟨_, ?_, ?_, s', hrest, hend⟩
  · exact hs
  · rfl

theorem Finishes.after_body {prog : Program} (hs : s.phase = .statement) (hp : prog.Parses us)
    (h : s.Finishes (us ++ ws)) :
    ∃ m : Compilation, m.phase = .statement ∧ m.blocks = s.blocks ∧ m.Finishes ws := by
  obtain ⟨m, hus, hrest⟩ := h.of_append
  obtain ⟨n, vs, rfl, hy⟩ := hp
  rw [read_newlines hs] at hus
  obtain ⟨-, rfl⟩ := (read_yields hy hs).mp hus
  refine ⟨_, ?_, ?_, hrest⟩
  · exact (phase_mentionAll prog.mentions).trans hs
  · exact blocks_mentionAll prog.mentions

theorem Finishes.after_close {b : Block} {bs : List Block} (hs : s.phase = .statement)
    (hb : s.blocks = b :: bs)
    (h : s.Finishes (Keyword.word (.close b) :: newlineWord :: ws)) :
    ∃ m : Compilation, m.phase = .statement ∧ m.blocks = bs ∧ m.Finishes ws := by
  obtain ⟨s', hread, hend⟩ := h
  refine ⟨_, ?_, ?_, s', (read_close hs hb 0 ws).symm.trans hread, hend⟩
  · exact hs
  · rfl

/-- The statements up to the end of the innermost block, or of the program. -/
theorem read_statements_inv (hs : s.phase = .statement) (h : s.Finishes ws)
    (hvalid : ∀ w ∈ ws, w.Valid) :
    ∃ (prog : Program) (us rest : List Word), ws = us ++ rest ∧ prog.Parses us ∧
      (s.blocks = [] ∧ rest = [] ∨ ∃ b bs vs, s.blocks = b :: bs ∧
        rest = Keyword.word (.close b) :: newlineWord :: vs) := by
  -- The body of a block and what follows a statement are both shorter than the words at hand.
  induction hn : ws.length using Nat.strongRecOn generalizing s ws with
  | ind n ih =>
    cases ws with
    | nil =>
      obtain ⟨s', hread, -, hblocks⟩ := h
      cases hread
      exact ⟨.empty, [], [], rfl, .nil, .inl ⟨hblocks, rfl⟩⟩
    | cons w ws =>
      obtain ⟨s', hread, hend⟩ := h
      obtain ⟨m, hstep, hrest⟩ := read_cons_eq_ok.mp hread
      have hm : m.Finishes ws := ⟨s', hrest, hend⟩
      obtain ⟨hw, hws⟩ := List.forall_mem_cons.mp hvalid
      rcases begin_inv hw ((step_statement hs).symm.trans hstep) with
        ⟨rfl, rfl⟩ | ⟨b, bs, hb, rfl, hphase⟩ | ⟨k, rfl, hk⟩
      · obtain ⟨prog, us, vs, rfl, hp, hvs⟩ := ih _ (by simp at hn; omega) hs hm hws rfl
        exact ⟨prog, newlineWord :: us, vs, rfl, hp.newline, hvs⟩
      · obtain ⟨rest, rfl⟩ := read_newline_inv (.inl hphase) hm hws
        exact ⟨.empty, [], _, rfl, .nil, .inr ⟨b, bs, rest, hb, rfl⟩⟩
      · have hwhole : s.Finishes (k.word :: ws) := ⟨s', hread, hend⟩
        rcases read_headed_inv hk hm hws with ⟨st, vs, heq⟩ | ⟨b, c, vs, heq⟩
        · rw [heq] at hwhole hvalid hn ⊢
          obtain ⟨r, hr, hblocks, hvs⟩ := hwhole.after_simple hs
          obtain ⟨prog, us, rest, rfl, hp, hrest⟩ :=
            ih _ (by simp at hn; omega) hr hvs (by grind) rfl
          rw [hblocks] at hrest
          exact ⟨.simple st prog, st.words ++ newlineWord :: us, rest, by simp, hp.simple st, hrest⟩
        · rw [heq] at hwhole hvalid hn ⊢
          obtain ⟨r, hr, hblocks, hvs⟩ := hwhole.after_head hs
          obtain ⟨body, us, xs, rfl, hbody, hxs⟩ :=
            ih _ (by simp at hn; omega) hr hvs (by grind) rfl
          -- Inside a block the body cannot end with the program.
          rcases hxs with ⟨hnone, -⟩ | ⟨b', bs, ys, hb, rfl⟩
          · rw [hblocks] at hnone
            cases hnone
          rw [hblocks] at hb
          cases hb
          obtain ⟨r', hr', hblocks', hclose⟩ := hvs.after_body hr hbody
          obtain ⟨t, ht, htb, hys⟩ := hclose.after_close hr' (hblocks'.trans hblocks)
          obtain ⟨prog, zs, rest, rfl, hp, hrest⟩ :=
            ih _ (by simp at hn; omega) ht hys (by grind) rfl
          rw [htb] at hrest
          exact ⟨.block b c body prog, _, rest, by simp, .block b c hbody hp, hrest⟩

theorem parses_of_finishes (h : start.Finishes ws) (hvalid : ∀ w ∈ ws, w.Valid) :
    ∃ prog : Program, prog.Parses ws := by
  obtain ⟨prog, us, rest, rfl, hp, hrest⟩ := read_statements_inv rfl h hvalid
  rcases hrest with ⟨-, rfl⟩ | ⟨b, bs, vs, hb, -⟩
  · exact ⟨prog, by simpa using hp⟩
  · cases hb

end Compilation

end TeenyToC
