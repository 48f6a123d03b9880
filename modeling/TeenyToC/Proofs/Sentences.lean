import TeenyToC.Proofs.Grammar
import TeenyToC.Proofs.Parsing

/-! The sentences of the grammar are the programs that have a tree (`derives_program_iff`). What a
rule captures is put together from what its parts capture, so a production needs no more than a
view of its tree as pairs, choices and lists. Going from a sentence to a tree takes words that are
spelled as their kinds ask, since a tree has no text for what only one text can stand for. -/

namespace TeenyToC

namespace Rule

/-- Of the words that are spelled as their kinds ask, the rule has those that an item is written
with. -/
def Captures {α : Type} (a : Rule) (words : α → List Word) : Prop :=
  ∀ ws : List Word, (∀ w ∈ ws, w.Valid) → (a.Spells ws ↔ ∃ x, ws = words x)

variable {α β : Type} {a b : Rule} {k : Kind} {x : Symbol} {f : α → List Word} {g : β → List Word}

theorem captures_symbol (h : x.production.Captures f) : (symbol x).Captures f :=
  fun ws hvalid => spells_symbol.trans (h ws hvalid)

/-- Another view of the same words. -/
theorem Captures.view (h : a.Captures f) (there : α → β) (back : β → α)
    (hthere : ∀ x, f x = g (there x)) (hback : ∀ y, g y = f (back y)) : a.Captures g := by
  intro ws hvalid
  rw [h ws hvalid]
  constructor
  · rintro ⟨x, rfl⟩
    exact ⟨there x, hthere x⟩
  · rintro ⟨y, rfl⟩
    exact ⟨back y, hback y⟩

theorem captures_self : a.Captures fun us : {us : List Word // a.Spells us} => us.1 := by
  intro ws _
  constructor
  · intro h
    exact ⟨⟨ws, h⟩, rfl⟩
  · intro h
    obtain ⟨⟨us, h⟩, rfl⟩ := h
    exact h

theorem captures_token (k : Kind) : (token k).Captures fun text => [(k, text)] :=
  fun _ _ => spells_token

theorem captures_text {text : String} (hk : k.text? = some text) :
    (token k).Captures fun _ : Unit => [(k, text)] := by
  intro ws hvalid
  rw [spells_token]
  constructor
  · rintro ⟨text', rfl⟩
    have hw : Word.Valid (k, text') := List.forall_mem_singleton.mp hvalid
    exact ⟨(), by rw [hw.eq_of_text? rfl hk]⟩
  · rintro ⟨-, rfl⟩
    exact ⟨text, rfl⟩

theorem Captures.seq (ha : a.Captures f) (hb : b.Captures g) :
    (a ++ b).Captures fun x : α × β => f x.1 ++ g x.2 := by
  intro ws hvalid
  rw [spells_seq]
  constructor
  · intro h
    obtain ⟨us, vs, rfl, hus, hvs⟩ := h
    obtain ⟨hus', hvs'⟩ := List.forall_mem_append.mp hvalid
    obtain ⟨x, rfl⟩ := (ha us hus').mp hus
    obtain ⟨y, rfl⟩ := (hb vs hvs').mp hvs
    exact ⟨(x, y), rfl⟩
  · rintro ⟨⟨x, y⟩, rfl⟩
    obtain ⟨hx, hy⟩ := List.forall_mem_append.mp hvalid
    exact ⟨f x, g y, rfl, (ha _ hx).mpr ⟨x, rfl⟩, (hb _ hy).mpr ⟨y, rfl⟩⟩

theorem Captures.either (ha : a.Captures f) (hb : b.Captures g) :
    (a ||| b).Captures (Sum.elim f g) := by
  intro ws hvalid
  rw [spells_either, ha ws hvalid, hb ws hvalid]
  constructor
  · intro h
    rcases h with ⟨x, rfl⟩ | ⟨y, rfl⟩
    · exact ⟨.inl x, rfl⟩
    · exact ⟨.inr y, rfl⟩
  · rintro ⟨x | y, rfl⟩
    · exact .inl ⟨x, rfl⟩
    · exact .inr ⟨y, rfl⟩

theorem Captures.opt (ha : a.Captures f) :
    (Rule.opt a).Captures fun x : Option α => x.elim [] f := by
  intro ws hvalid
  rw [spells_opt, ha ws hvalid]
  constructor
  · intro h
    rcases h with rfl | ⟨x, rfl⟩
    · exact ⟨none, rfl⟩
    · exact ⟨some x, rfl⟩
  · rintro ⟨_ | x, rfl⟩
    · exact .inl rfl
    · exact .inr ⟨x, rfl⟩

theorem Captures.many (ha : a.Captures f) :
    (Rule.many a).Captures fun xs : List α => xs.flatMap f := by
  intro ws hvalid
  rw [spells_many]
  constructor
  · intro h
    obtain ⟨wss, rfl, hwss⟩ := h
    induction wss with
    | nil => exact ⟨[], rfl⟩
    | cons us wss ih =>
      obtain ⟨hus, hrest⟩ := List.forall_mem_append.mp hvalid
      obtain ⟨h, hwss'⟩ := List.forall_mem_cons.mp hwss
      obtain ⟨x, rfl⟩ := (ha us hus).mp h
      obtain ⟨xs, hxs⟩ := ih hwss' hrest
      exact ⟨x :: xs, congrArg (f x ++ ·) hxs⟩
  · rintro ⟨xs, rfl⟩
    refine ⟨xs.map f, rfl, List.forall_mem_map.mpr fun x hx => ?_⟩
    have hvalid' : ∀ w ∈ f x, w.Valid := fun w hw => hvalid w (List.mem_flatMap.mpr ⟨x, hx, hw⟩)
    exact (ha _ hvalid').mpr ⟨x, rfl⟩

/-! What the productions capture. -/

theorem captures_additive :
    (Additive.plus ||| Additive.minus : Rule).Captures fun op : Additive => [op.word] := by
  refine ((captures_text rfl).either (captures_text rfl)).view
    (Sum.elim (fun _ => .plus) fun _ => .minus)
    (fun op => Additive.casesOn op (.inl ()) (.inr ())) ?_ ?_
  · rintro (_ | _) <;> rfl
  · rintro (_ | _) <;> rfl

theorem captures_multiplicative : (Multiplicative.times ||| Multiplicative.divide : Rule).Captures
    fun op : Multiplicative => [op.word] := by
  refine ((captures_text rfl).either (captures_text rfl)).view
    (Sum.elim (fun _ => .times) fun _ => .divide)
    (fun op => Multiplicative.casesOn op (.inl ()) (.inr ())) ?_ ?_
  · rintro (_ | _) <;> rfl
  · rintro (_ | _) <;> rfl

theorem captures_comparator : comparator.Captures fun op : Comparison => [op.word] := by
  intro ws hvalid
  have htext (op : Comparison) : (token (.comparison op)).Spells ws ↔ ws = [op.word] :=
    (captures_text rfl ws hvalid).trans (exists_const Unit)
  unfold comparator
  simp only [spells_either, htext]
  constructor
  · rintro (((((h | h) | h) | h) | h) | h) <;> exact ⟨_, h⟩
  · rintro ⟨_ | _ | _ | _ | _ | _, rfl⟩ <;> simp

theorem captures_newlines : (many Kind.newline).Captures newlines := by
  have hnewline : (token .newline).Captures fun _ : Unit => [newlineWord] := captures_text rfl
  refine hnewline.many.view List.length (List.replicate · ()) ?_ ?_
  · intro xs
    induction xs with
    | nil => rfl
    | cons x xs ih => exact congrArg (newlineWord :: ·) ih
  · intro n
    induction n with
    | zero => rfl
    | succ n ih => exact congrArg (newlineWord :: ·) ih

theorem captures_nl : (symbol .nl).Captures fun n => newlineWord :: newlines n :=
  captures_symbol <| ((captures_text rfl).seq captures_newlines).view (·.2) (fun n => ((), n))
    (fun _ => rfl) fun _ => rfl

theorem captures_primary : (symbol .primary).Captures fun o : Operand => [o.word] := by
  refine captures_symbol (((captures_token .number).either (captures_token .ident)).view
    (Sum.elim .number .name) (fun o => Operand.casesOn o .inl .inr) ?_ ?_)
  · rintro (_ | _) <;> rfl
  · rintro (_ | _) <;> rfl

theorem captures_unary : (symbol .unary).Captures Factor.words := by
  refine captures_symbol ((captures_additive.opt.seq captures_primary).view
    (fun x => ⟨x.1, x.2⟩) (fun f => (f.sign, f.operand)) ?_ ?_)
  · rintro ⟨_ | _, _⟩ <;> rfl
  · rintro ⟨_ | _, _⟩ <;> rfl

theorem captures_chain {ω : Type} {op : ω → Word} (ha : a.Captures fun o => [op o])
    (hb : b.Captures f) : (b ++ many (a ++ b)).Captures fun c : Chain ω α => c.words op f :=
  (hb.seq (ha.seq hb).many).view (fun x => ⟨x.1, x.2⟩) (fun c => (c.first, c.rest))
    (fun _ => rfl) fun _ => rfl

theorem captures_term : (symbol .term).Captures Term.words :=
  captures_symbol (captures_chain captures_multiplicative captures_unary)

theorem captures_expression : (symbol .expression).Captures Expression.words :=
  captures_symbol (captures_chain captures_additive captures_term)

theorem captures_comparison : (symbol .comparison).Captures Condition.words := by
  have hrest := (captures_comparator.seq captures_expression).many
  have hall := ((captures_expression.seq captures_comparator).seq captures_expression).seq hrest
  refine captures_symbol (hall.view
    (fun ⟨⟨⟨first, o⟩, e⟩, rest⟩ => ⟨⟨first, (o, e) :: rest⟩, by simp⟩)
    (fun c => (((c.chain.first, (c.chain.rest.head c.compared).1),
      (c.chain.rest.head c.compared).2), c.chain.rest.tail)) ?_ ?_)
  · rintro ⟨⟨⟨first, o⟩, e⟩, rest⟩
    simp [Condition.words, Chain.words]
  · intro h
    rcases h with ⟨⟨first, _ | ⟨⟨o, e⟩, rest⟩⟩, hne⟩
    · exact absurd rfl hne
    · simp [Condition.words, Chain.words]

/-- A statement of one line that says no more than what stands after its keyword. -/
theorem captures_line (k : Keyword) (ha : a.Captures f) :
    (k ++ a ++ Symbol.nl : Rule).Captures
      fun x : α × Nat => k.word :: f x.1 ++ newlineWord :: newlines x.2 :=
  (((captures_text rfl).seq ha).seq captures_nl).view (fun x => (x.1.2, x.2))
    (fun x => (((), x.1), x.2)) (fun _ => rfl) fun _ => rfl

theorem captures_assign :
    (Keyword.assign ++ Kind.ident ++ Kind.equals ++ Symbol.expression ++ Symbol.nl : Rule).Captures
      fun x : (String × Expression) × Nat =>
        (Simple.assign x.1.1 x.1.2).words ++ newlineWord :: newlines x.2 :=
  have hname := (captures_text rfl).seq (captures_token .ident)
  have hvalue := (hname.seq (captures_text rfl)).seq captures_expression
  (hvalue.seq captures_nl).view (fun x => ((x.1.1.1.2, x.1.2), x.2))
    (fun x => (((((), x.1.1), ()), x.1.2), x.2)) (fun _ => rfl) fun _ => rfl

/-- The body is left as it is, since what it captures takes a recursion on the words. -/
theorem captures_block (b : Block) :
    (Keyword.head b ++ Symbol.comparison ++ Keyword.entry b ++ Symbol.nl ++ many Symbol.statement ++
      Keyword.close b ++ Symbol.nl : Rule).Captures
        fun x : Condition × Nat × {us : List Word // (many Symbol.statement).Spells us} × Nat =>
          Keyword.word (.head b) :: x.1.words ++ Keyword.word (.entry b) :: newlineWord ::
            newlines x.2.1 ++ x.2.2.1.1 ++ Keyword.word (.close b) :: newlineWord ::
              newlines x.2.2.2 := by
  have hhead := (captures_text (k := .keyword (.head b)) rfl).seq captures_comparison
  have hentry := (hhead.seq (captures_text (k := .keyword (.entry b)) rfl)).seq captures_nl
  have hbody := hentry.seq (captures_self (a := many Symbol.statement))
  have hclose := (hbody.seq (captures_text (k := .keyword (.close b)) rfl)).seq captures_nl
  refine hclose.view (fun ⟨⟨⟨⟨⟨⟨_, c⟩, _⟩, m⟩, us⟩, _⟩, n⟩ => (c, m, us, n))
    (fun ⟨c, m, us, n⟩ => (((((((), c), ()), m), us), ()), n)) ?_ ?_
  · rintro ⟨⟨⟨⟨⟨⟨_, c⟩, _⟩, m⟩, us⟩, _⟩, n⟩
    simp [Keyword.word]
  · rintro ⟨c, m, us, n⟩
    simp [Keyword.word]

theorem spells_statement {ws : List Word} (hvalid : ∀ w ∈ ws, w.Valid) :
    (symbol .statement).Spells ws ↔
      (∃ (st : Simple) (n : Nat), ws = st.words ++ newlineWord :: newlines n) ∨
        ∃ (b : Block) (c : Condition) (us : List Word) (m n : Nat),
          ws = Keyword.word (.head b) :: c.words ++ Keyword.word (.entry b) :: newlineWord ::
            newlines m ++ us ++ Keyword.word (.close b) :: newlineWord :: newlines n ∧
          (many Symbol.statement).Spells us := by
  have hprint :=
    captures_line .print ((captures_token .string).either captures_expression) ws hvalid
  have hname (k : Keyword) := captures_line k (captures_token .ident) ws hvalid
  have hblock (b : Block) := captures_block b ws hvalid
  rw [spells_symbol]
  unfold Symbol.production
  simp only [spells_either, hprint, hname, hblock, captures_assign ws hvalid]
  constructor
  · -- The cases come in the order of the productions, which is not that of the trees.
    rintro ((((((h | h) | h) | h) | h) | h) | h)
    · obtain ⟨⟨text | e, n⟩, rfl⟩ := h
      · exact .inl ⟨.printText text, n, rfl⟩
      · exact .inl ⟨.printValue e, n, rfl⟩
    · obtain ⟨⟨c, m, us, n⟩, rfl⟩ := h
      exact .inr ⟨.cond, c, us, m, n, rfl, us.2⟩
    · obtain ⟨⟨c, m, us, n⟩, rfl⟩ := h
      exact .inr ⟨.loop, c, us, m, n, rfl, us.2⟩
    · obtain ⟨⟨name, n⟩, rfl⟩ := h
      exact .inl ⟨.label name, n, rfl⟩
    · obtain ⟨⟨name, n⟩, rfl⟩ := h
      exact .inl ⟨.goto name, n, rfl⟩
    · obtain ⟨⟨⟨name, e⟩, n⟩, rfl⟩ := h
      exact .inl ⟨.assign name e, n, rfl⟩
    · obtain ⟨⟨name, n⟩, rfl⟩ := h
      exact .inl ⟨.input name, n, rfl⟩
  · intro h
    rcases h with ⟨st, n, rfl⟩ | ⟨b, c, us, m, n, rfl, hus⟩
    · cases st with
      | printText text => exact .inl (.inl (.inl (.inl (.inl (.inl ⟨(.inl text, n), rfl⟩)))))
      | printValue e => exact .inl (.inl (.inl (.inl (.inl (.inl ⟨(.inr e, n), rfl⟩)))))
      | label name => exact .inl (.inl (.inl (.inr ⟨(name, n), rfl⟩)))
      | goto name => exact .inl (.inl (.inr ⟨(name, n), rfl⟩))
      | assign name e => exact .inl (.inr ⟨((name, e), n), rfl⟩)
      | input name => exact .inr ⟨(name, n), rfl⟩
    · cases b with
      | cond => exact .inl (.inl (.inl (.inl (.inl (.inr ⟨(c, m, ⟨us, hus⟩, n), rfl⟩)))))
      | loop => exact .inl (.inl (.inl (.inl (.inr ⟨(c, m, ⟨us, hus⟩, n), rfl⟩))))

/-- Statements one after the other are the words of a tree. -/
theorem spells_statements {ws : List Word} (hvalid : ∀ w ∈ ws, w.Valid) :
    (many Symbol.statement).Spells ws ↔ ∃ prog : Program, prog.Yields ws := by
  constructor
  · intro h
    -- Both a body and what follows a statement are shorter than the words at hand.
    induction hn : ws.length using Nat.strongRecOn generalizing ws with
    | ind n ih =>
      obtain ⟨wss, rfl, hwss⟩ := spells_many.mp h
      cases wss with
      | nil => exact ⟨.empty, .empty⟩
      | cons us wss =>
        obtain ⟨hst, hwss⟩ := List.forall_mem_cons.mp hwss
        rw [List.flatten_cons] at hvalid hn ⊢
        obtain ⟨hus, hrest⟩ := List.forall_mem_append.mp hvalid
        have hstatements := spells_many.mpr ⟨wss, rfl, hwss⟩
        rcases (spells_statement hus).mp hst with ⟨st, i, rfl⟩ | ⟨b, c, vs, i, j, rfl, hvs⟩
        · obtain ⟨prog, hy⟩ := ih _ (by simp at hn ⊢; omega) hrest hstatements rfl
          exact ⟨.simple st prog, .simple i hy⟩
        · have hvs' : ∀ w ∈ vs, w.Valid := fun w hw => hus w (by simp [hw])
          obtain ⟨body, hbody⟩ := ih _ (by simp at hn ⊢; omega) hvs' hvs rfl
          obtain ⟨prog, hy⟩ := ih _ (by simp at hn ⊢; omega) hrest hstatements rfl
          exact ⟨.block b c body prog, .block i j hbody hy⟩
  · intro h
    obtain ⟨prog, hy⟩ := h
    induction hy with
    | empty => exact .nil _
    | simple i _ ih =>
      obtain ⟨hus, hrest⟩ := List.forall_mem_append.mp hvalid
      exact spells_many_append ((spells_statement hus).mpr (.inl ⟨_, i, rfl⟩)) (ih hrest)
    | @block b c body rest us ws i j _ _ ihb ihr =>
      have hus : ∀ w ∈ us, w.Valid := fun w hw => hvalid w (by simp [hw])
      have hws : ∀ w ∈ ws, w.Valid := fun w hw => hvalid w (by simp [hw])
      have hwords : Keyword.word (.head b) :: c.words ++ Keyword.word (.entry b) :: newlineWord ::
          newlines i ++ us ++ Keyword.word (.close b) :: newlineWord :: newlines j ++ ws =
            (Keyword.word (.head b) :: c.words ++ Keyword.word (.entry b) :: newlineWord ::
              newlines i ++ us ++ Keyword.word (.close b) :: newlineWord :: newlines j) ++ ws := by
        simp
      rw [hwords] at hvalid ⊢
      obtain ⟨hblock, -⟩ := List.forall_mem_append.mp hvalid
      exact spells_many_append
        ((spells_statement hblock).mpr (.inr ⟨b, c, us, i, j, rfl, ihb hus⟩)) (ihr hws)

end Rule

/-- The sentences of the grammar are what has a tree. -/
theorem derives_program_iff {ws : List Word} (hvalid : ∀ w ∈ ws, w.Valid) :
    Derives Symbol.program (ws.map (·.1)) ↔ ∃ prog : Program, prog.Parses ws := by
  change (Rule.symbol .program).Spells ws ↔ _
  rw [Rule.spells_symbol]
  unfold Symbol.production
  rw [Rule.spells_seq]
  constructor
  · intro h
    obtain ⟨us, vs, rfl, hus, hvs⟩ := h
    obtain ⟨hus', hvs'⟩ := List.forall_mem_append.mp hvalid
    obtain ⟨n, rfl⟩ := (Rule.captures_newlines us hus').mp hus
    obtain ⟨prog, hy⟩ := (Rule.spells_statements hvs').mp hvs
    exact ⟨prog, n, vs, rfl, hy⟩
  · intro h
    obtain ⟨prog, n, vs, rfl, hy⟩ := h
    obtain ⟨hus, hvs⟩ := List.forall_mem_append.mp hvalid
    exact ⟨newlines n, vs, rfl, (Rule.captures_newlines _ hus).mpr ⟨n, rfl⟩,
      (Rule.spells_statements hvs).mpr ⟨prog, hy⟩⟩

end TeenyToC
