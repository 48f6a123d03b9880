import TeenyToC.Token

/-! The grammar of Teeny, as productions over the kinds of tokens. A sentence is taken apart at the
outermost rule: one lemma for each form of rule says what the words of such a sentence are. -/

namespace TeenyToC

inductive Symbol where
  | program
  | statement
  | comparison
  | expression
  | term
  | unary
  | primary
  | nl
  deriving DecidableEq, Repr

/-- One side of a production: `opt` may be left out and `many` repeated, also not at all. -/
inductive Rule where
  | token (k : Kind)
  | symbol (x : Symbol)
  | seq (a b : Rule)
  | either (a b : Rule)
  | opt (a : Rule)
  | many (a : Rule)
  deriving DecidableEq, Repr

namespace Rule

instance : Append Rule := ⟨seq⟩

instance : OrOp Rule := ⟨either⟩

instance : Coe Symbol Rule := ⟨symbol⟩

instance : Coe Kind Rule := ⟨token⟩

instance : Coe Keyword Rule := ⟨fun k => token (.keyword k)⟩

instance : Coe Additive Rule := ⟨fun op => token (.additive op)⟩

instance : Coe Multiplicative Rule := ⟨fun op => token (.multiplicative op)⟩

instance : Coe Comparison Rule := ⟨fun op => token (.comparison op)⟩

def comparator : Rule :=
  Comparison.eq ||| Comparison.ne ||| Comparison.lt ||| Comparison.le ||| Comparison.gt |||
    Comparison.ge

end Rule

def Symbol.production : Symbol → Rule
  | program => .many Kind.newline ++ .many statement
  | statement =>
    (Keyword.print ++ (Kind.string ||| expression) ++ nl) |||
    (Keyword.head .cond ++ comparison ++ Keyword.entry .cond ++ nl ++ .many statement ++
      Keyword.close .cond ++ nl) |||
    (Keyword.head .loop ++ comparison ++ Keyword.entry .loop ++ nl ++ .many statement ++
      Keyword.close .loop ++ nl) |||
    (Keyword.label ++ Kind.ident ++ nl) |||
    (Keyword.goto ++ Kind.ident ++ nl) |||
    (Keyword.assign ++ Kind.ident ++ Kind.equals ++ expression ++ nl) |||
    (Keyword.input ++ Kind.ident ++ nl)
  | comparison =>
    expression ++ Rule.comparator ++ expression ++ .many (Rule.comparator ++ expression)
  | expression => term ++ .many ((Additive.plus ||| Additive.minus) ++ term)
  | term => unary ++ .many ((Multiplicative.times ||| Multiplicative.divide) ++ unary)
  | unary => .opt (Additive.plus ||| Additive.minus) ++ primary
  | primary => Kind.number ||| Kind.ident
  | nl => Kind.newline ++ .many Kind.newline

/-- The kinds are derived from the rule. -/
inductive Derives : Rule → List Kind → Prop where
  | token (k : Kind) : Derives (.token k) [k]
  | symbol {x : Symbol} {ks : List Kind} : Derives x.production ks → Derives (.symbol x) ks
  | seq {a b : Rule} {ks ls : List Kind} :
      Derives a ks → Derives b ls → Derives (.seq a b) (ks ++ ls)
  | left {a : Rule} (b : Rule) {ks : List Kind} : Derives a ks → Derives (.either a b) ks
  | right (a : Rule) {b : Rule} {ks : List Kind} : Derives b ks → Derives (.either a b) ks
  | none (a : Rule) : Derives (.opt a) []
  | some {a : Rule} {ks : List Kind} : Derives a ks → Derives (.opt a) ks
  | nil (a : Rule) : Derives (.many a) []
  | cons {a : Rule} {ks ls : List Kind} :
      Derives a ks → Derives (.many a) ls → Derives (.many a) (ks ++ ls)

/-- Words whose kinds are derived from the rule. -/
def Rule.Spells (r : Rule) (ws : List Word) : Prop := Derives r (ws.map (·.1))

namespace Rule
variable {a b : Rule} {k : Kind} {x : Symbol} {us vs ws : List Word}

theorem spells_token : (token k).Spells ws ↔ ∃ text, ws = [(k, text)] := by
  constructor
  · intro h
    unfold Spells at h
    generalize hks : ws.map (·.1) = ks at h
    cases h
    obtain ⟨⟨_, text⟩, rfl, rfl⟩ := List.map_eq_singleton_iff.mp hks
    exact ⟨text, rfl⟩
  · rintro ⟨text, rfl⟩
    exact .token k

theorem spells_symbol : (symbol x).Spells ws ↔ x.production.Spells ws := by
  constructor
  · rintro ⟨⟩
    assumption
  · exact .symbol

theorem spells_seq : (a ++ b).Spells ws ↔ ∃ us vs, ws = us ++ vs ∧ a.Spells us ∧ b.Spells vs := by
  constructor
  · intro h
    unfold Spells at h
    generalize hks : ws.map (·.1) = ks at h
    cases h with
    | seq ha hb =>
      obtain ⟨us, vs, rfl, rfl, rfl⟩ := List.map_eq_append_iff.mp hks
      exact ⟨us, vs, rfl, ha, hb⟩
  · intro h
    obtain ⟨us, vs, rfl, ha, hb⟩ := h
    rw [Spells, List.map_append]
    exact .seq ha hb

theorem spells_either : (a ||| b).Spells ws ↔ a.Spells ws ∨ b.Spells ws := by
  constructor
  · rintro ⟨⟩
    · exact .inl ‹_›
    · exact .inr ‹_›
  · intro h
    rcases h with h | h
    · exact .left b h
    · exact .right a h

theorem spells_opt : (opt a).Spells ws ↔ ws = [] ∨ a.Spells ws := by
  constructor
  · intro h
    unfold Spells at h
    generalize hks : ws.map (·.1) = ks at h
    cases h with
    | none => exact .inl (List.map_eq_nil_iff.mp hks)
    | some h =>
      subst hks
      exact .inr h
  · intro h
    rcases h with rfl | h
    · exact .none a
    · exact .some h

/-- A repetition is a list of items, one after the other. -/
theorem spells_many : (many a).Spells ws ↔
    ∃ wss : List (List Word), ws = wss.flatten ∧ ∀ us ∈ wss, a.Spells us := by
  constructor
  · intro h
    unfold Spells at h
    generalize hks : ws.map (·.1) = ks at h
    generalize hr : many a = r at h
    induction h generalizing ws with
    | nil => exact ⟨[], List.map_eq_nil_iff.mp hks, nofun⟩
    | cons ha _ _ ih =>
      cases hr
      obtain ⟨us, vs, rfl, rfl, rfl⟩ := List.map_eq_append_iff.mp hks
      obtain ⟨wss, rfl, hwss⟩ := ih rfl rfl
      exact ⟨us :: wss, rfl, List.forall_mem_cons.mpr ⟨ha, hwss⟩⟩
    | _ => cases hr
  · intro h
    obtain ⟨wss, rfl, h⟩ := h
    induction wss with
    | nil => exact .nil a
    | cons us wss ih =>
      obtain ⟨hus, hwss⟩ := List.forall_mem_cons.mp h
      rw [Spells, List.flatten_cons, List.map_append]
      exact .cons hus (ih hwss)

theorem spells_many_append (hus : a.Spells us) (hvs : (many a).Spells vs) :
    (many a).Spells (us ++ vs) := by
  rw [Spells, List.map_append]
  exact .cons hus hvs

end Rule

end TeenyToC
