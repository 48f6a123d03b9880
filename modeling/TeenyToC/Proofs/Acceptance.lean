import TeenyToC.Proofs.Emission
import TeenyToC.Proofs.Sentences

/-! What is accepted: the sentences of the grammar whose names keep the rules. The rules speak of
the words alone, where the role of a name is told by the word before it; the tree of the words
has the same mentions in the same order (`mentions_of_parses`). -/

namespace TeenyToC
variable {r : Role} {us ws : List Word}

theorem mentions_append_cons {w : Word} (hw : w.1 ≠ .ident) (us ws : List Word) :
    mentions r (us ++ w :: ws) = mentions r us ++ mentions w.1.introduces ws := by
  induction us generalizing r with
  | nil =>
    obtain ⟨kind, text⟩ := w
    exact if_neg hw
  | cons u us ih =>
    -- The role of the next name is told by `u`, so the claim is for every role.
    obtain ⟨kind, text⟩ := u
    by_cases hk : kind = .ident <;> simp [mentions, hk, ih]

theorem mentions_newlines (n : Nat) (ws : List Word) :
    mentions .operand (newlines n ++ ws) = mentions .operand ws := by
  induction n with
  | zero => rfl
  | succ n ih => exact (mentions_append_cons (w := newlineWord) nofun [] _).trans ih

section Chains
variable {ω α : Type} {op : ω → Word} {item : α → List Word} {reads : α → List String}

theorem mentions_chain (hop : ∀ o, (op o).1 ≠ .ident ∧ (op o).1.introduces = .operand)
    (hitem : ∀ a, mentions .operand (item a) = reading (reads a)) (c : Chain ω α) :
    mentions .operand (c.words op item) = reading (c.items.flatMap reads) := by
  obtain ⟨first, rest⟩ := c
  change mentions .operand (item first ++ Chain.restWords op item rest) = _
  induction rest generalizing first with
  | nil => simp [Chain.restWords, Chain.items, hitem]
  | cons link rest ih =>
    obtain ⟨o, a⟩ := link
    rw [Chain.restWords_cons, mentions_append_cons (hop o).1, (hop o).2, ih, hitem]
    simp [reading, Chain.items]

end Chains

theorem mentions_factor (f : Factor) :
    mentions .operand f.words = reading f.operand.reads := by
  rcases f with ⟨_ | op, _ | x⟩ <;> rfl

theorem mentions_expression (e : Expression) :
    mentions .operand e.words = reading e.reads :=
  mentions_chain (fun _ => ⟨by exact nofun, rfl⟩)
    (fun t => mentions_chain (fun _ => ⟨by exact nofun, rfl⟩) mentions_factor t) e

theorem mentions_condition (c : Condition) :
    mentions .operand c.words = reading c.reads :=
  mentions_chain (fun _ => ⟨by exact nofun, rfl⟩) mentions_expression c.chain

theorem mentions_simple (st : Simple) : mentions .operand st.words = st.mentions := by
  cases st with
  | printValue e => exact mentions_expression e
  | assign name e => exact congrArg (_ :: ·) (mentions_expression e)
  | _ => rfl

theorem mentions_of_yields {prog : Program} (h : prog.Yields ws) :
    mentions .operand ws = prog.mentions := by
  induction h with
  | empty => rfl
  | @simple st rest ws n _ ih =>
    have hwords : st.words ++ newlineWord :: newlines n ++ ws =
        st.words ++ newlineWord :: (newlines n ++ ws) := by simp
    have hmentions := mentions_append_cons (r := .operand) (w := newlineWord) nofun st.words
      (newlines n ++ ws)
    rw [hwords, hmentions, mentions_simple]
    exact congrArg (st.mentions ++ ·) ((mentions_newlines n ws).trans ih)
  | @block b c body rest us ws m n _ _ ihb ihr =>
    have hwords : Keyword.word (.head b) :: c.words ++ Keyword.word (.entry b) :: newlineWord ::
        newlines m ++ us ++ Keyword.word (.close b) :: newlineWord :: newlines n ++ ws =
          Keyword.word (.head b) :: (c.words ++ Keyword.word (.entry b) :: newlineWord ::
            (newlines m ++ us ++ Keyword.word (.close b) :: newlineWord ::
              (newlines n ++ ws))) := by simp
    have hhead (vs : List Word) :
        mentions .operand (Keyword.word (.head b) :: vs) = mentions .operand vs := rfl
    have hentry (vs : List Word) :
        mentions .operand (c.words ++ Keyword.word (.entry b) :: newlineWord :: vs) =
          reading c.reads ++ mentions .operand vs := by
      rw [mentions_append_cons (by exact nofun), mentions_condition]
      rfl
    have hclose (us vs : List Word) :
        mentions .operand (us ++ Keyword.word (.close b) :: newlineWord :: vs) =
          mentions .operand us ++ mentions .operand vs := mentions_append_cons (by exact nofun) us _
    rw [hwords, hhead, hentry, hclose, mentions_newlines, mentions_newlines, ihb, ihr,
      ← List.append_assoc]
    rfl

theorem mentions_of_parses {prog : Program} (h : prog.Parses ws) :
    mentions .operand ws = prog.mentions := by
  obtain ⟨n, us, rfl, hy⟩ := h
  rw [mentions_newlines, mentions_of_yields hy]

/-- A text is compiled exactly if it can be split into tokens that make a sentence, and the names in
them keep the rules. -/
theorem compile_ok_iff {source : String} : (∃ c, compile source = .ok c) ↔
    ∃ ts ws, tokenize source = .ok ts ∧ ts.map Token.word = ws ++ [eofWord] ∧
      Derives Symbol.program (ws.map (·.1)) ∧ Scoped (mentions .operand ws) := by
  simp only [compile_eq_ok_iff]
  constructor
  · intro h
    obtain ⟨c, ts, ws, htokens, hws, haccepts⟩ := h
    have hvalid := valid_of_tokenize htokens hws
    obtain ⟨prog, hp⟩ := Compilation.parses_of_finishes (finishes_of_accepts haccepts) hvalid
    obtain ⟨hscoped, -⟩ := (accepts_iff_of_parses hp).mp haccepts
    rw [← mentions_of_parses hp] at hscoped
    exact ⟨ts, ws, htokens, hws, (derives_program_iff hvalid).mpr ⟨prog, hp⟩, hscoped⟩
  · intro h
    obtain ⟨ts, ws, htokens, hws, hderives, hscoped⟩ := h
    obtain ⟨prog, hp⟩ := (derives_program_iff (valid_of_tokenize htokens hws)).mp hderives
    rw [mentions_of_parses hp] at hscoped
    exact ⟨prog.source, ts, ws, htokens, hws, (accepts_iff_of_parses hp).mpr ⟨hscoped, rfl⟩⟩

end TeenyToC
