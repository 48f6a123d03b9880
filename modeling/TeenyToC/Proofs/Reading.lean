import TeenyToC.Proofs.Formulas

/-! Trees are read. From a state that awaits what a tree stands for, its words are read exactly if
each of its mentions is allowed where it stands, and then nothing but the C text of the tree and
its names are added to the state (`read_yields`). -/

namespace TeenyToC

def newlines (n : Nat) : List Word := List.replicate n newlineWord

/-- The words of a program, where each line ends with one newline or more. -/
inductive Program.Yields : Program → List Word → Prop where
  | empty : Yields .empty []
  | simple {s : Simple} {rest : Program} {ws : List Word} (n : Nat) :
      Yields rest ws → Yields (.simple s rest) (s.words ++ newlineWord :: newlines n ++ ws)
  | block {b : Block} {c : Condition} {body rest : Program} {us ws : List Word} (m n : Nat) :
      Yields body us → Yields rest ws → Yields (.block b c body rest)
        (Keyword.word (.head b) :: c.words ++ Keyword.word (.entry b) :: newlineWord ::
          newlines m ++ us ++ Keyword.word (.close b) :: newlineWord :: newlines n ++ ws)

/-- The tree of a program, which may begin with empty lines. -/
def Program.Parses (p : Program) (ws : List Word) : Prop :=
  ∃ n us, ws = newlines n ++ us ∧ p.Yields us

namespace Compilation
variable {s s' : Compilation} {p : Place} {t : Token}

theorem step_statement (h : s.phase = .statement) : s.step t = s.begin t := by
  rw [step_of_phase (by simp [h]), accept, h]

theorem step_printed (h : s.phase = .printed) : s.step t = s.printed t := by
  rw [step_of_phase (by simp [h]), accept, h]

theorem step_labelName (h : s.phase = .labelName) :
    s.step t = expect t .ident (s.await (.labelled t)) := by
  rw [step_of_phase (by simp [h]), accept, h]

theorem step_gotoName (h : s.phase = .gotoName) : s.step t = expect t .ident
    (({ s with jumps := t :: s.jumps }.writeLine ("goto " ++ t.text ++ ";")).await .lineEnd) := by
  rw [step_of_phase (by simp [h]), accept, h]

theorem step_letName (h : s.phase = .letName) : s.step t = expect t .ident
    (((s.declare t.text).write (t.text ++ " = ")).await .equals) := by
  rw [step_of_phase (by simp [h]), accept, h]

theorem step_equals (h : s.phase = .equals) :
    s.step t = expect t .equals (s.await (.signed .assign)) := by
  rw [step_of_phase (by simp [h]), accept, h]

theorem step_inputName (h : s.phase = .inputName) :
    s.step t = expect t .ident ((s.input t.text).await .lineEnd) := by
  rw [step_of_phase (by simp [h]), accept, h]

theorem step_lineEnd (h : s.phase = .lineEnd) :
    s.step t = expect t .newline (s.await .statement) := by
  rw [step_of_phase (by simp [h]), accept, h]

/-- The keywords that start a statement. -/
def headed (s : Compilation) : Keyword → Option Compilation
  | .print => some (s.await .printed)
  | .head b => some ((s.write b.opening).await (.signed (.guard b false)))
  | .label => some (s.await .labelName)
  | .goto => some (s.await .gotoName)
  | .assign => some (s.await .letName)
  | .input => some (s.await .inputName)
  | .entry _ | .close _ => none

theorem step_headed {k : Keyword} {m : Compilation} (h : s.phase = .statement)
    (hk : s.headed k = some m) : s.step (.ofWord k.word) = .ok m := by
  have hcloses : s.closes (.ofWord k.word) = false := by
    unfold closes
    cases s.blocks with
    | nil => rfl
    | cons b bs => cases k <;> simp_all [Token.ofWord, Keyword.word, headed]
  rw [step_statement h, begin, hcloses]
  cases k <;> cases hk <;> rfl

theorem step_newline_of_lineEnd (h : s.phase = .lineEnd) :
    s.step (.ofWord newlineWord) = .ok (s.await .statement) := step_lineEnd h

theorem step_newline_of_statement (h : s.phase = .statement) :
    s.step (.ofWord newlineWord) = .ok s := by
  have hcloses : s.closes (.ofWord newlineWord) = false := by
    unfold closes
    cases s.blocks <;> rfl
  rw [step_statement h, begin, hcloses]
  rfl

theorem read_newlines (h : s.phase = .statement) (n : Nat) (ws : List Word) :
    s.read (newlines n ++ ws) = s.read ws := by
  induction n with
  | zero => rfl
  | succ n ih => exact (read_cons_of_ok (step_newline_of_statement h)).trans ih

theorem writeLine_eq (code : String) : s.writeLine code = s.write (code ++ "\n") := rfl

theorem declare_await (phase : Phase) (name : String) :
    (s.await phase).declare name = (s.declare name).await phase := by
  by_cases h : name ∈ s.declared <;> simp [declare, await, h]

theorem declare_write (code name : String) :
    (s.write code).declare name = (s.declare name).write code := by
  by_cases h : name ∈ s.declared <;>
    simp [declare, write, CSource.write, CSource.writeHeaderLine, CSource.writeHeader, h]

theorem phase_declare (name : String) : (s.declare name).phase = s.phase := by
  unfold declare
  split <;> rfl

theorem signed_await (phase : Phase) : (s.await phase).signed p t = s.signed p t := by
  obtain ⟨kind, text, line⟩ := t
  cases kind <;> rfl

/-- What is no string is printed as a value. -/
theorem read_printed_cons {w : Word} (h : s.phase = .printed) (hw : w.1 ≠ .string)
    (ws : List Word) : s.read (w :: ws) =
      ((s.write "printf(\"%.2f\\n\", (float)(").await (.signed .print)).read (w :: ws) := by
  have hprinted : s.printed (.ofWord w) =
      (s.write "printf(\"%.2f\\n\", (float)(").signed .print (.ofWord w) := if_neg hw
  have hsigned := step_signed (s := (s.write "printf(\"%.2f\\n\", (float)(").await (.signed .print))
    (t := .ofWord w) rfl
  rw [read_cons, read_cons, step_printed h, hprinted, hsigned, signed_await]

/-- The first word of an expression is not taken for a string. -/
theorem read_printed (h : s.phase = .printed) (e : Expression) (ws : List Word) :
    s.read (e.words ++ ws) =
      ((s.write "printf(\"%.2f\\n\", (float)(").await (.signed .print)).read (e.words ++ ws) := by
  obtain ⟨w, us, he, hw⟩ := Expression.words_eq_cons e
  rw [he, List.cons_append, read_printed_cons h hw]

/-- An expression up to the end of its line. -/
theorem read_ended {ending : String} (h : s.phase = .signed p)
    (hend : ∀ m : Compilation, m.phase = .operator p →
      m.step (.ofWord newlineWord) = .ok ((m.write ending).await .statement)) (e : Expression) :
    s.read (e.words ++ [newlineWord]) = .ok s' ↔ (∀ x ∈ e.reads, x ∈ s.declared) ∧
      s' = (s.write (e.code ++ ending)).await .statement := by
  have hread (m : Compilation) : s.read e.words = .ok m ↔ _ := read_expression h e
  rw [read_append_eq_ok]
  simp only [hread, read_singleton]
  constructor
  · rintro ⟨m, ⟨hreads, rfl⟩, hstep⟩
    rw [hend _ rfl] at hstep
    cases hstep
    exact ⟨hreads, by simp only [await_write, write_write, await_await]⟩
  · rintro ⟨hreads, rfl⟩
    refine ⟨_, ⟨hreads, rfl⟩, ?_⟩
    rw [hend _ rfl, await_write, write_write, await_await]

/-- The token after a label is looked at when the label is known not to stand twice. -/
theorem step_labelled (name : String) :
    (s.await (.labelled (.ofWord (nameWord name)))).step (.ofWord newlineWord) =
      if name ∈ s.labels then .error ⟨0, .duplicateLabel name⟩
      else .ok (((s.mention ⟨.label, name⟩).write (name ++ ":;" ++ "\n")).await .statement) := by
  by_cases h : name ∈ s.labels
  · have hsettle : (s.await (.labelled (.ofWord (nameWord name)))).settle =
        .error ⟨0, .duplicateLabel name⟩ := if_pos h
    rw [step, hsettle, if_pos h]
    rfl
  · have hsettle : (s.await (.labelled (.ofWord (nameWord name)))).settle =
        .ok (((s.mention ⟨.label, name⟩).write (name ++ ":;" ++ "\n")).await .lineEnd) := if_neg h
    rw [step, hsettle, if_neg h]
    rfl

theorem input_eq (name : String) :
    s.input name = (s.declare name).write (Simple.input name).code := by
  have hcode : "if(1 != scanf(\"%f\", &" ++ name ++ ")) \x7b" ++ "\n" ++
      (name ++ " = 0;" ++ "\n") ++ ("scanf(\"%*s\");" ++ "\n") ++ ("\x7d" ++ "\n") =
        (Simple.input name).code := by
    change _ = "if(1 != scanf(\"%f\", &" ++ name ++ ")) \x7b\n" ++ name ++ " = 0;\n" ++
      "scanf(\"%*s\");\n" ++ "\x7d\n"
    simp only [String.append_assoc, String.reduceAppend]
  simp only [input, writeLine_eq, write_write, hcode]

/-- A state between two statements is told by what it holds. -/
theorem write_await (h : s.phase = .statement) (code : String) :
    (s.write code).await .statement = s.write code := await_of_phase (by exact h)

/-- A line of a keyword and one more word. -/
theorem read_line {k : Keyword} {w : Word} {m r : Compilation} (hr : r.phase = .statement)
    (hk : s.step (.ofWord k.word) = .ok m) (hw : m.step (.ofWord w) = .ok (r.await .lineEnd)) :
    s.read [k.word, w, newlineWord] = .ok r := by
  rw [read_cons_of_ok hk, read_cons_of_ok hw, read_singleton, step_newline_of_lineEnd rfl,
    await_await, await_of_phase hr]

theorem step_string (h : s.phase = .printed) (text : String) :
    s.step (.ofWord (.string, text)) =
      .ok ((s.write (Simple.printText text).code).await .lineEnd) := by
  have hcode : "printf(\"" ++ text ++ "\\n\");" ++ "\n" = (Simple.printText text).code := by
    change _ = "printf(\"" ++ text ++ "\\n\");\n"
    simp only [String.append_assoc, String.reduceAppend]
  rw [step_printed h, ← hcode]
  simp only [printed, Token.ofWord, if_true, writeLine_eq]

theorem read_printText (h : s.phase = .statement) (text : String) :
    s.read ((Simple.printText text).words ++ [newlineWord]) =
      .ok (s.write (Simple.printText text).code) :=
  read_line h (step_headed h rfl) (step_string (s := s.await .printed) rfl text)

theorem read_printValue (h : s.phase = .statement) (e : Expression) :
    s.read ((Simple.printValue e).words ++ [newlineWord]) = .ok s' ↔
      (∀ x ∈ e.reads, x ∈ s.declared) ∧ s' = s.write (Simple.printValue e).code := by
  have hwords : (Simple.printValue e).words ++ [newlineWord] =
      Keyword.word .print :: (e.words ++ [newlineWord]) := rfl
  have hprint : s.step (.ofWord (Keyword.word .print)) = .ok (s.await .printed) :=
    step_headed h rfl
  have hend (m : Compilation) (hm : m.phase = .operator .print) :
      m.step (.ofWord newlineWord) = .ok ((m.write ("));" ++ "\n")).await .statement) := by
    rw [step_operator hm, ← writeLine_eq]
    rfl
  have hcode : "printf(\"%.2f\\n\", (float)(" ++ (e.code ++ ("));" ++ "\n")) =
      (Simple.printValue e).code := by
    change _ = "printf(\"%.2f\\n\", (float)(" ++ e.code ++ "));\n"
    simp only [String.append_assoc, String.reduceAppend]
  rw [hwords, read_cons_of_ok hprint, read_printed rfl]
  refine (read_ended rfl hend e).trans (and_congr Iff.rfl ?_)
  simp only [await_write, write_write, await_await, write_await h, hcode]

theorem read_label (h : s.phase = .statement) (name : String) :
    s.read ((Simple.label name).words ++ [newlineWord]) =
      if name ∈ s.labels then .error ⟨0, .duplicateLabel name⟩
      else .ok ((s.mention ⟨.label, name⟩).write (Simple.label name).code) := by
  have hlabel : s.step (.ofWord (Keyword.word .label)) = .ok (s.await .labelName) :=
    step_headed h rfl
  have hname : (s.await .labelName).step (.ofWord (nameWord name)) =
      .ok (s.await (.labelled (.ofWord (nameWord name)))) := step_labelName rfl
  have hcode : name ++ ":;" ++ "\n" = (Simple.label name).code := by
    change _ = name ++ ":;\n"
    simp only [String.append_assoc, String.reduceAppend]
  have hphase : (s.mention ⟨.label, name⟩).phase = .statement := h
  rw [Simple.words, List.cons_append, List.cons_append, read_cons_of_ok hlabel,
    read_cons_of_ok hname, List.nil_append, read_singleton, step_labelled, write_await hphase,
    hcode]

theorem read_goto (h : s.phase = .statement) (name : String) :
    s.read ((Simple.goto name).words ++ [newlineWord]) =
      .ok ((s.mention ⟨.jump, name⟩).write (Simple.goto name).code) := by
  have hcode : "goto " ++ name ++ ";" ++ "\n" = (Simple.goto name).code := by
    change _ = "goto " ++ name ++ ";\n"
    simp only [String.append_assoc, String.reduceAppend]
  have hname : (s.await .gotoName).step (.ofWord (nameWord name)) =
      .ok (((s.mention ⟨.jump, name⟩).write (Simple.goto name).code).await .lineEnd) := by
    rw [step_gotoName rfl, ← hcode]
    rfl
  exact read_line h (step_headed h rfl) hname

theorem read_assign (h : s.phase = .statement) (name : String) (e : Expression) :
    s.read ((Simple.assign name e).words ++ [newlineWord]) = .ok s' ↔
      (∀ x ∈ e.reads, x ∈ (s.declare name).declared) ∧
        s' = (s.declare name).write (Simple.assign name e).code := by
  have hlet : s.step (.ofWord (Keyword.word .assign)) = .ok (s.await .letName) :=
    step_headed h rfl
  have hname : (s.await .letName).step (.ofWord (nameWord name)) =
      .ok (((s.declare name).write (name ++ " = ")).await .equals) := by
    rw [step_letName rfl, declare_await]
    rfl
  have hequals : (((s.declare name).write (name ++ " = ")).await .equals).step
      (.ofWord (.equals, "=")) =
        .ok (((s.declare name).write (name ++ " = ")).await (.signed .assign)) := step_equals rfl
  have hend (m : Compilation) (hm : m.phase = .operator .assign) :
      m.step (.ofWord newlineWord) = .ok ((m.write (";" ++ "\n")).await .statement) := by
    rw [step_operator hm, ← writeLine_eq]
    rfl
  have hwords : (Simple.assign name e).words ++ [newlineWord] = Keyword.word .assign ::
      nameWord name :: (.equals, "=") :: (e.words ++ [newlineWord]) := rfl
  have hcode : name ++ " = " ++ (e.code ++ (";" ++ "\n")) = (Simple.assign name e).code := by
    change _ = name ++ " = " ++ e.code ++ ";\n"
    simp only [String.append_assoc, String.reduceAppend]
  have hphase : (s.declare name).phase = .statement := (phase_declare name).trans h
  rw [hwords, read_cons_of_ok hlet, read_cons_of_ok hname, read_cons_of_ok hequals]
  refine (read_ended rfl hend e).trans (and_congr Iff.rfl ?_)
  simp only [await_write, write_write, await_await, write_await hphase, hcode]

theorem read_input (h : s.phase = .statement) (name : String) :
    s.read ((Simple.input name).words ++ [newlineWord]) =
      .ok ((s.declare name).write (Simple.input name).code) := by
  have hname : (s.await .inputName).step (.ofWord (nameWord name)) =
      .ok (((s.declare name).write (Simple.input name).code).await .lineEnd) := by
    have hexpect (m : Compilation) : expect (.ofWord (nameWord name)) .ident m = .ok m := rfl
    rw [step_inputName rfl, hexpect]
    change Except.ok (((s.await .inputName).input name).await .lineEnd) = _
    rw [input_eq, declare_await, await_write, await_await]
  exact read_line ((phase_declare name).trans h) (step_headed h rfl) hname

theorem read_simple (h : s.phase = .statement) (st : Simple) :
    s.read (st.words ++ [newlineWord]) = .ok s' ↔
      s.Admits st.mentions ∧ s' = (s.mentionAll st.mentions).write st.code := by
  cases st with
  | printText text =>
    rw [read_printText h, Except.ok.injEq, eq_comm]
    simp only [Simple.mentions, Admits, true_and]
    rfl
  | printValue e =>
    rw [read_printValue h, Simple.mentions, admits_reading, mentionAll_reading]
  | label name =>
    rw [read_label h]
    by_cases hfresh : name ∈ s.labels
    · simp [hfresh, Simple.mentions, Admits, Allows]
    · rw [if_neg hfresh, Except.ok.injEq, eq_comm]
      simp only [Simple.mentions, Admits, Allows, hfresh, not_false_eq_true, true_and]
      rfl
  | goto name =>
    rw [read_goto h, Except.ok.injEq, eq_comm]
    simp only [Simple.mentions, Admits, Allows, true_and]
    rfl
  | assign name e =>
    have hmentions : s.mentionAll (⟨.target, name⟩ :: reading e.reads) = s.declare name :=
      mentionAll_reading e.reads
    rw [read_assign h, Simple.mentions, hmentions]
    refine and_congr ?_ Iff.rfl
    simp only [Admits, Allows, true_and, admits_reading]
    rfl
  | input name =>
    rw [read_input h, Except.ok.injEq, eq_comm]
    simp only [Simple.mentions, Admits, Allows, true_and]
    rfl

/-! Mentions leave alone what they do not speak of. -/

/-- What is done to a state between two mentions can be done at the end. -/
theorem mentionAll_comm {f : Compilation → Compilation}
    (hf : ∀ (s : Compilation) (m : Mention), (f s).mention m = f (s.mention m))
    (ms : List Mention) : (f s).mentionAll ms = f (s.mentionAll ms) := by
  induction ms generalizing s with
  | nil => rfl
  | cons m ms ih => exact (congrArg (mentionAll · ms) (hf s m)).trans ih

theorem mentionAll_write (ms : List Mention) (code : String) :
    (s.write code).mentionAll ms = (s.mentionAll ms).write code := by
  refine mentionAll_comm (f := (·.write code)) (fun s m => ?_) ms
  obtain ⟨role, name⟩ := m
  cases role with
  | target => exact declare_write code name
  | _ => rfl

theorem mentionAll_await (ms : List Mention) (phase : Phase) :
    (s.await phase).mentionAll ms = (s.mentionAll ms).await phase := by
  refine mentionAll_comm (f := (·.await phase)) (fun s m => ?_) ms
  obtain ⟨role, name⟩ := m
  cases role with
  | target => exact declare_await phase name
  | _ => rfl

/-- The state with other blocks open. -/
def inside (s : Compilation) (blocks : List Block) : Compilation := { s with blocks := blocks }

theorem mentionAll_inside (ms : List Mention) (blocks : List Block) :
    (s.inside blocks).mentionAll ms = (s.mentionAll ms).inside blocks := by
  refine mentionAll_comm (f := (·.inside blocks)) (fun s m => ?_) ms
  obtain ⟨role, name⟩ := m
  cases role with
  | target => by_cases h : name ∈ s.declared <;> simp [mention, declare, inside, h]
  | _ => rfl

theorem phase_mentionAll (ms : List Mention) : (s.mentionAll ms).phase = s.phase := by
  have h := congrArg phase (mentionAll_await (s := s) ms s.phase)
  exact h

theorem blocks_mentionAll (ms : List Mention) : (s.mentionAll ms).blocks = s.blocks := by
  have h := congrArg blocks (mentionAll_inside (s := s) ms s.blocks)
  exact h

/-- Whether mentions are allowed depends on the names alone. -/
theorem admits_congr {r : Compilation} {ms : List Mention} (hd : s.declared = r.declared)
    (hl : s.labels = r.labels) : s.Admits ms ↔ r.Admits ms := by
  rw [admits_iff, admits_iff, hd, hl]

theorem admits_write {ms : List Mention} (code : String) :
    (s.write code).Admits ms ↔ s.Admits ms := admits_congr (by rfl) (by rfl)

theorem admits_inside {ms : List Mention} (blocks : List Block) :
    (s.inside blocks).Admits ms ↔ s.Admits ms := admits_congr (by rfl) (by rfl)

/-- The head of a block, up to the first line in it. -/
theorem read_head (h : s.phase = .statement) (b : Block) (c : Condition) (m : Nat)
    (ws : List Word) :
    s.read (Keyword.word (.head b) :: c.words ++ Keyword.word (.entry b) :: newlineWord ::
        newlines m ++ ws) = .ok s' ↔ (∀ x ∈ c.reads, x ∈ s.declared) ∧
      ((s.write (b.opening ++ c.code ++ ")\x7b\n")).inside (b :: s.blocks)).read ws = .ok s' := by
  have hwords : Keyword.word (.head b) :: c.words ++ Keyword.word (.entry b) :: newlineWord ::
      newlines m ++ ws = Keyword.word (.head b) :: (c.words ++ (Keyword.word (.entry b) ::
        newlineWord :: (newlines m ++ ws))) := by simp
  have hhead : s.step (.ofWord (Keyword.word (.head b))) =
      .ok ((s.write b.opening).await (.signed (.guard b false))) := step_headed h rfl
  have hcondition (r : Compilation) : ((s.write b.opening).await (.signed (.guard b false))).read
      c.words = .ok r ↔ _ := read_condition rfl c
  have hopen (r : Compilation) : r.writeLine ")\x7b" = r.write ")\x7b\n" := by
    simp only [writeLine_eq, String.reduceAppend]
  have hentry {r : Compilation} (hr : r.phase = .operator (.guard b true)) :
      r.step (.ofWord (Keyword.word (.entry b))) =
        .ok (((r.inside (b :: r.blocks)).write ")\x7b\n").await .lineEnd) := by
    rw [step_operator hr, ← hopen]
    exact if_pos rfl
  let entered := (s.write (b.opening ++ c.code ++ ")\x7b\n")).inside (b :: s.blocks)
  have hrest : ((((s.write b.opening).await (.signed (.guard b false))).write c.code).await
      (.operator (.guard b true))).read (Keyword.word (.entry b) :: newlineWord ::
        (newlines m ++ ws)) = entered.read ws := by
    have hentered : entered.await .statement = entered := await_of_phase h
    rw [read_cons_of_ok (hentry rfl), read_cons_of_ok (step_newline_of_lineEnd rfl), await_await]
    refine Eq.trans (congrArg (read · _) ?_) (read_newlines (s := entered) h m ws)
    rw [← hentered]
    simp only [entered, ← write_write]
    rfl
  rw [hwords, read_cons_of_ok hhead, read_append_eq_ok]
  simp only [hcondition]
  constructor
  · rintro ⟨r, ⟨hreads, rfl⟩, hread⟩
    exact ⟨hreads, hrest.symm.trans hread⟩
  · rintro ⟨hreads, hread⟩
    exact ⟨_, ⟨hreads, rfl⟩, hrest.trans hread⟩

/-- The end of a block, up to the next line. -/
theorem read_close {b : Block} {bs : List Block} (h : s.phase = .statement)
    (hb : s.blocks = b :: bs) (n : Nat) (ws : List Word) :
    s.read (Keyword.word (.close b) :: newlineWord :: newlines n ++ ws) =
      ((s.write "\x7d\n").inside bs).read ws := by
  have hcloses : s.closes (.ofWord (Keyword.word (.close b))) = true := by
    simp [closes, hb, Token.ofWord, Keyword.word]
  have hend : s.writeLine "\x7d" = s.write "\x7d\n" := by
    simp only [writeLine_eq, String.reduceAppend]
  have hclose : s.step (.ofWord (Keyword.word (.close b))) =
      .ok (((s.write "\x7d\n").inside bs).await .lineEnd) := by
    rw [step_statement h, begin, if_pos hcloses, hb, ← hend]
    rfl
  have hclosed : ((s.write "\x7d\n").inside bs).await .statement = (s.write "\x7d\n").inside bs :=
    await_of_phase h
  rw [List.cons_append, List.cons_append, read_cons_of_ok hclose,
    read_cons_of_ok (step_newline_of_lineEnd rfl), await_await, hclosed]
  exact read_newlines (s := (s.write "\x7d\n").inside bs) h n ws

/-- A block is read as its body is: the names of the body stay, and the block is closed again. -/
theorem read_block {b : Block} {c : Condition} {body : Program} {us : List Word}
    (hus : ∀ s s' : Compilation, s.phase = .statement → (s.read us = .ok s' ↔
      s.Admits body.mentions ∧ s' = (s.mentionAll body.mentions).write body.code))
    (h : s.phase = .statement) (m n : Nat) (ws : List Word) :
    s.read (Keyword.word (.head b) :: c.words ++ Keyword.word (.entry b) :: newlineWord ::
        newlines m ++ us ++ Keyword.word (.close b) :: newlineWord :: newlines n ++ ws) = .ok s' ↔
      ((∀ x ∈ c.reads, x ∈ s.declared) ∧ s.Admits body.mentions) ∧
        ((s.mentionAll body.mentions).write (b.code c.code body.code)).read ws = .ok s' := by
  have hwords : Keyword.word (.head b) :: c.words ++ Keyword.word (.entry b) :: newlineWord ::
      newlines m ++ us ++ Keyword.word (.close b) :: newlineWord :: newlines n ++ ws =
        Keyword.word (.head b) :: c.words ++ Keyword.word (.entry b) :: newlineWord ::
          newlines m ++ (us ++ (Keyword.word (.close b) :: newlineWord :: newlines n ++ ws)) := by
    simp
  let inner := (s.write (b.opening ++ c.code ++ ")\x7b\n")).inside (b :: s.blocks)
  let closed := (inner.mentionAll body.mentions).write body.code
  let outer := (s.mentionAll body.mentions).write (b.code c.code body.code)
  have hclosed : closed.phase = .statement := (phase_mentionAll _).trans h
  have houter : (closed.write "\x7d\n").inside s.blocks = outer := by
    have hcode : b.code c.code body.code =
        b.opening ++ c.code ++ ")\x7b\n" ++ body.code ++ "\x7d\n" := by cases b <;> rfl
    have hblocks : (s.mentionAll body.mentions).inside s.blocks = s.mentionAll body.mentions := by
      rw [← mentionAll_inside]
      rfl
    simp only [closed, inner, outer, mentionAll_inside, mentionAll_write, hcode, ← write_write]
    rw [← hblocks]
    rfl
  have hrest : closed.read (Keyword.word (.close b) :: newlineWord :: newlines n ++ ws) =
      outer.read ws := by
    rw [read_close hclosed (blocks_mentionAll _), houter]
  have hadmits : inner.Admits body.mentions ↔ s.Admits body.mentions :=
    (admits_inside _).trans (admits_write _)
  have hbody (r : Compilation) : inner.read us = .ok r ↔ s.Admits body.mentions ∧ r = closed := by
    rw [hus inner r (by exact h), hadmits]
  have hhead (vs : List Word) : s.read (Keyword.word (.head b) :: c.words ++
      Keyword.word (.entry b) :: newlineWord :: newlines m ++ vs) = .ok s' ↔
        (∀ x ∈ c.reads, x ∈ s.declared) ∧ inner.read vs = .ok s' := read_head h b c m vs
  rw [hwords, hhead, read_append_eq_ok]
  simp only [hbody]
  constructor
  · rintro ⟨hreads, r, ⟨hadmitted, rfl⟩, hrun⟩
    exact ⟨⟨hreads, hadmitted⟩, hrest.symm.trans hrun⟩
  · rintro ⟨⟨hreads, hadmitted⟩, hrun⟩
    exact ⟨hreads, closed, ⟨hadmitted, rfl⟩, hrest.trans hrun⟩

theorem read_yields {prog : Program} {ws : List Word} (hy : prog.Yields ws)
    (h : s.phase = .statement) : s.read ws = .ok s' ↔
      s.Admits prog.mentions ∧ s' = (s.mentionAll prog.mentions).write prog.code := by
  -- The text written so far and the open blocks do not matter to what follows, so each case only
  -- joins what its first statement and the rest say.
  induction hy generalizing s s' with
  | empty => simp [Program.mentions, Program.code, Admits, mentionAll, write_empty, eq_comm]
  | @simple st rest ws n _ ih =>
    have hwords : st.words ++ newlineWord :: newlines n ++ ws =
        (st.words ++ [newlineWord]) ++ (newlines n ++ ws) := by simp
    have hst (m : Compilation) : s.read (st.words ++ [newlineWord]) = .ok m ↔ _ := read_simple h st
    have hphase : ((s.mentionAll st.mentions).write st.code).phase = .statement :=
      (phase_mentionAll st.mentions).trans h
    have hrest : ((s.mentionAll st.mentions).write st.code).read (newlines n ++ ws) = .ok s' ↔ _ :=
      (read_newlines hphase n ws).symm ▸ ih hphase
    rw [admits_write, mentionAll_write, write_write] at hrest
    rw [hwords, read_append_eq_ok, Program.mentions, admits_append, mentionAll_append]
    simp only [hst]
    constructor
    · rintro ⟨m, ⟨hadmits, rfl⟩, hrun⟩
      obtain ⟨hadmitted, hs⟩ := hrest.mp hrun
      exact ⟨⟨hadmits, hadmitted⟩, hs⟩
    · rintro ⟨⟨hadmits, hadmitted⟩, hs⟩
      exact ⟨_, ⟨hadmits, rfl⟩, hrest.mpr ⟨hadmitted, hs⟩⟩
  | @block b c body rest us ws m n _ _ ihb ihr =>
    let outer := (s.mentionAll body.mentions).write (b.code c.code body.code)
    have hrest : outer.read ws = .ok s' ↔ _ := ihr ((phase_mentionAll body.mentions).trans h)
    rw [admits_write, mentionAll_write, write_write] at hrest
    rw [read_block (fun s s' hs => ihb hs) h, hrest]
    simp only [Program.mentions, admits_append, mentionAll_append, admits_reading,
      mentionAll_reading]
    exact and_assoc.symm

end Compilation

end TeenyToC
