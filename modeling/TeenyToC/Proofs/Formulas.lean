import TeenyToC.Proofs.Names
import TeenyToC.Proofs.Words

/-! Expressions and conditions are read. From the place of an expression its words are read exactly
if each variable in it has been declared, and then nothing but its C text is added. Operators of all
levels are read in the same way, so a chain is read as its items are (`read_chain`). -/

namespace TeenyToC

namespace Chain
variable {ω α : Type}

def restWords (op : ω → Word) (item : α → List Word) (rest : List (ω × α)) : List Word :=
  rest.flatMap fun (o, a) => op o :: item a

def restCode (op : ω → String) (item : α → String) (rest : List (ω × α)) : String :=
  String.join (rest.map fun (o, a) => " " ++ op o ++ " " ++ item a)

theorem words_eq (op : ω → Word) (item : α → List Word) (c : Chain ω α) :
    c.words op item = item c.first ++ restWords op item c.rest := rfl

theorem restWords_cons (op : ω → Word) (item : α → List Word) (o : ω) (a : α)
    (rest : List (ω × α)) :
    restWords op item ((o, a) :: rest) = op o :: (item a ++ restWords op item rest) := rfl

theorem restCode_cons (op : ω → String) (item : α → String) (o : ω) (a : α)
    (rest : List (ω × α)) : restCode op item ((o, a) :: rest) =
      " " ++ op o ++ " " ++ item a ++ restCode op item rest := String.join_cons

theorem code_eq (op : ω → String) (item : α → String) (c : Chain ω α) :
    c.code op item = item c.first ++ restCode op item c.rest := by
  unfold code
  -- The text grows at its end, so the induction is over any text before the rest.
  generalize item c.first = text
  induction c.rest generalizing text with
  | nil => simp [restCode]
  | cons r rest ih =>
    rw [List.foldl_cons, ih]
    simp [restCode, String.append_assoc]

end Chain

theorem Factor.words_eq_cons (f : Factor) : ∃ w ws, f.words = w :: ws ∧ w.1 ≠ .string := by
  obtain ⟨sign, o⟩ := f
  cases sign with
  | none => exact ⟨o.word, [], rfl, by cases o <;> simp [Operand.word, nameWord]⟩
  | some op => exact ⟨op.word, [o.word], rfl, by simp [Additive.word]⟩

theorem Expression.words_eq_cons (e : Expression) : ∃ w ws, e.words = w :: ws ∧ w.1 ≠ .string := by
  obtain ⟨⟨f, factors⟩, terms⟩ := e
  obtain ⟨w, ws, hf, hw⟩ := f.words_eq_cons
  refine ⟨w, ws ++ Chain.restWords Multiplicative.word Factor.words factors ++
    Chain.restWords Additive.word Term.words terms, ?_, hw⟩
  change f.words ++ _ ++ _ = _
  rw [hf]
  rfl

namespace Compilation
variable {s s' : Compilation} {p : Place} {t : Token}

theorem write_write (a b : String) : (s.write a).write b = s.write (a ++ b) := by
  simp [write, CSource.write, String.append_assoc]

theorem write_empty : s.write "" = s := by
  simp [write, CSource.write]

theorem await_write (phase : Phase) (code : String) :
    (s.await phase).write code = (s.write code).await phase := rfl

theorem await_await (phase phase' : Phase) : (s.await phase).await phase' = s.await phase' := rfl

theorem await_of_phase {phase : Phase} (h : s.phase = phase) : s.await phase = s := by
  subst h
  rfl

theorem step_of_phase (h : ∀ name, s.phase ≠ .labelled name) : s.step t = s.accept t := by
  rw [step, settle_of_not_labelled h]
  rfl

theorem step_signed (h : s.phase = .signed p) : s.step t = s.signed p t := by
  rw [step_of_phase (by simp [h]), accept, h]

theorem step_operand (h : s.phase = .operand p) : s.step t = s.operand p t := by
  rw [step_of_phase (by simp [h]), accept, h]

theorem step_operator (h : s.phase = .operator p) : s.step t = s.operator p t := by
  rw [step_of_phase (by simp [h]), accept, h]

theorem operand_word (o : Operand) : s.operand p (.ofWord o.word) = .ok s' ↔
    (∀ x ∈ o.reads, x ∈ s.declared) ∧ s' = (s.write o.code).await (.operator p) := by
  cases o with
  | number digits =>
    simp [operand, Token.ofWord, Operand.word, Operand.reads, Operand.code, eq_comm]
  | name x =>
    by_cases h : x ∈ s.declared <;>
      simp [operand, Token.ofWord, Operand.word, Operand.reads, Operand.code, nameWord, fail, h,
        eq_comm]

theorem read_factor (h : s.phase = .signed p) (f : Factor) : s.read f.words = .ok s' ↔
    (∀ x ∈ f.operand.reads, x ∈ s.declared) ∧ s' = (s.write f.code).await (.operator p) := by
  obtain ⟨sign, o⟩ := f
  cases sign with
  | none =>
    have hsigned : s.signed p (.ofWord o.word) = s.operand p (.ofWord o.word) := by
      cases o <;> rfl
    have hwords : (⟨none, o⟩ : Factor).words = [o.word] := rfl
    have hcode : (⟨none, o⟩ : Factor).code = o.code := String.empty_append
    rw [hwords, hcode, read_singleton, step_signed h, hsigned, operand_word]
  | some op =>
    have hstep : s.step (.ofWord op.word) = .ok ((s.write op.symbol).await (.operand p)) :=
      step_signed h
    have hwords : (⟨some op, o⟩ : Factor).words = [op.word, o.word] := rfl
    have hcode : (⟨some op, o⟩ : Factor).code = op.symbol ++ o.code := rfl
    let signed := (s.write op.symbol).await (.operand p)
    have hoperand : signed.step (.ofWord o.word) = signed.operand p (.ofWord o.word) :=
      step_operand rfl
    rw [hwords, hcode, read_cons_of_ok hstep, read_singleton, hoperand, operand_word, await_write,
      write_write, await_await]
    rfl

section Chains
variable {ω α : Type} {op : ω → Word} {opCode : ω → String} {item : α → List Word}
  {itemCode : α → String} {reads : α → List String}

/-- What follows the first item, from a place where the operators and the items are read. -/
theorem read_rest
    (hop : ∀ (s : Compilation) o, s.phase = .operator p →
      s.step (.ofWord (op o)) = .ok ((s.write (" " ++ opCode o ++ " ")).await (.signed p)))
    (hitem : ∀ (s s' : Compilation) a, s.phase = .signed p → (s.read (item a) = .ok s' ↔
      (∀ x ∈ reads a, x ∈ s.declared) ∧ s' = (s.write (itemCode a)).await (.operator p)))
    (rest : List (ω × α)) (h : s.phase = .operator p) :
    s.read (Chain.restWords op item rest) = .ok s' ↔
      (∀ x ∈ rest.flatMap fun r => reads r.2, x ∈ s.declared) ∧
        s' = (s.write (Chain.restCode opCode itemCode rest)).await (.operator p) := by
  induction rest generalizing s with
  | nil => simp [Chain.restWords, Chain.restCode, write_empty, await_of_phase h, eq_comm]
  | cons r rest ih =>
    obtain ⟨o, a⟩ := r
    have hread (m : Compilation) :=
      hitem ((s.write (" " ++ opCode o ++ " ")).await (.signed p)) m a rfl
    rw [Chain.restWords_cons, Chain.restCode_cons, read_cons_of_ok (hop s o h), read_append_eq_ok]
    simp only [hread, await_write, await_await, write_write]
    rw [List.flatMap_cons, List.forall_mem_append]
    constructor
    · rintro ⟨m, ⟨hreads, rfl⟩, hread⟩
      obtain ⟨hrest, rfl⟩ := (ih rfl).mp hread
      exact ⟨⟨hreads, hrest⟩, by rw [await_write, write_write, await_await]⟩
    · rintro ⟨⟨hreads, hrest⟩, rfl⟩
      refine ⟨_, ⟨hreads, rfl⟩, (ih rfl).mpr ⟨hrest, ?_⟩⟩
      rw [await_write, write_write, await_await]

/-- A chain of which all operators are read at the same place. -/
theorem read_chain
    (hop : ∀ (s : Compilation) o, s.phase = .operator p →
      s.step (.ofWord (op o)) = .ok ((s.write (" " ++ opCode o ++ " ")).await (.signed p)))
    (hitem : ∀ (s s' : Compilation) a, s.phase = .signed p → (s.read (item a) = .ok s' ↔
      (∀ x ∈ reads a, x ∈ s.declared) ∧ s' = (s.write (itemCode a)).await (.operator p)))
    (c : Chain ω α) (h : s.phase = .signed p) : s.read (c.words op item) = .ok s' ↔
      (∀ x ∈ c.items.flatMap reads, x ∈ s.declared) ∧
        s' = (s.write (c.code opCode itemCode)).await (.operator p) := by
  obtain ⟨first, rest⟩ := c
  have hitems : (⟨first, rest⟩ : Chain ω α).items.flatMap reads =
      reads first ++ rest.flatMap fun r => reads r.2 := by
    simp [Chain.items, List.flatMap_map]
  have hread (m : Compilation) := hitem s m first h
  rw [Chain.words_eq, hitems, Chain.code_eq, read_append_eq_ok, List.forall_mem_append]
  simp only [hread]
  constructor
  · rintro ⟨m, ⟨hfirst, rfl⟩, hread⟩
    obtain ⟨hrest, rfl⟩ := (read_rest hop hitem rest rfl).mp hread
    exact ⟨⟨hfirst, hrest⟩, by rw [await_write, write_write, await_await]⟩
  · rintro ⟨⟨hfirst, hrest⟩, rfl⟩
    refine ⟨_, ⟨hfirst, rfl⟩, (read_rest hop hitem rest rfl).mpr ⟨hrest, ?_⟩⟩
    rw [await_write, write_write, await_await]

end Chains

theorem read_term (h : s.phase = .signed p) (t : Term) : s.read t.words = .ok s' ↔
    (∀ x ∈ t.items.flatMap fun f => f.operand.reads, x ∈ s.declared) ∧
      s' = (s.write t.code).await (.operator p) := by
  refine read_chain (fun s o hs => ?_) (fun s s' f hs => read_factor hs f) t h
  rw [step_operator hs]
  cases p <;> rfl

theorem read_expression (h : s.phase = .signed p) (e : Expression) : s.read e.words = .ok s' ↔
    (∀ x ∈ e.reads, x ∈ s.declared) ∧ s' = (s.write e.code).await (.operator p) := by
  refine read_chain (fun s o hs => ?_) (fun s s' t hs => read_term hs t) e h
  rw [step_operator hs]
  cases p <;> rfl

/-- A condition is complete after its first comparison, which all others follow. -/
theorem read_condition {b : Block} (h : s.phase = .signed (.guard b false)) (c : Condition) :
    s.read c.words = .ok s' ↔ (∀ x ∈ c.reads, x ∈ s.declared) ∧
      s' = (s.write c.code).await (.operator (.guard b true)) := by
  obtain ⟨⟨first, rest⟩, hne⟩ := c
  cases rest with
  | nil => exact absurd rfl hne
  | cons r rest =>
    obtain ⟨o, e⟩ := r
    -- What follows the first comparison is a chain whose comparisons are all read alike.
    let tail : Chain Comparison Expression := ⟨e, rest⟩
    let tailCode := tail.code Comparison.symbol Expression.code
    have htail {s s' : Compilation} (hs : s.phase = .signed (.guard b true)) :
        s.read (tail.words Comparison.word Expression.words) = .ok s' ↔
          (∀ x ∈ tail.items.flatMap Expression.reads, x ∈ s.declared) ∧
            s' = (s.write tailCode).await (.operator (.guard b true)) :=
      read_chain (fun s o hs => step_operator hs) (fun s s' e hs => read_expression hs e) tail hs
    have hfirst (m : Compilation) : s.read first.words = .ok m ↔ _ := read_expression h first
    have hstep {s : Compilation} (hs : s.phase = .operator (.guard b false)) :
        s.step (.ofWord o.word) =
          .ok ((s.write (" " ++ o.symbol ++ " ")).await (.signed (.guard b true))) :=
      step_operator hs
    have hwords : Condition.words ⟨⟨first, (o, e) :: rest⟩, hne⟩ =
        first.words ++ o.word :: tail.words Comparison.word Expression.words := rfl
    have hcode : Condition.code ⟨⟨first, (o, e) :: rest⟩, hne⟩ =
        first.code ++ (" " ++ o.symbol ++ " ") ++ tailCode := by
      simp [Condition.code, Chain.code_eq, Chain.restCode, tail, tailCode, String.append_assoc]
    have hreads : Condition.reads ⟨⟨first, (o, e) :: rest⟩, hne⟩ =
        first.reads ++ tail.items.flatMap Expression.reads := rfl
    rw [hwords, hcode, hreads, read_append_eq_ok, List.forall_mem_append]
    constructor
    · rintro ⟨m, hm, hread⟩
      obtain ⟨hfirst, rfl⟩ := (hfirst m).mp hm
      rw [read_cons_of_ok (hstep rfl)] at hread
      obtain ⟨hrest, rfl⟩ := (htail rfl).mp hread
      refine ⟨⟨hfirst, hrest⟩, ?_⟩
      simp only [await_write, write_write, await_await]
    · rintro ⟨⟨hfirst', hrest⟩, rfl⟩
      refine ⟨_, (hfirst _).mpr ⟨hfirst', rfl⟩, ?_⟩
      rw [read_cons_of_ok (hstep rfl)]
      refine (htail rfl).mpr ⟨hrest, ?_⟩
      simp only [await_write, write_write, await_await]

end Compilation

end TeenyToC
