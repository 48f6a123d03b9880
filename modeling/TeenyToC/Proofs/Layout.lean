import TeenyToC.Proofs.Emission

/-! The layout of a program is where its empty lines are. Without them the tokens of a program are
the words of its tree (`layout_of_parses`). -/

namespace TeenyToC

/-- One newline for each run of newlines. -/
def collapse : List Word → List Word
  | [] => []
  | w :: ws => if w.1 = .newline ∧ ws.head?.map (·.1) = some .newline then collapse ws
    else w :: collapse ws

/-- The words without the newlines in front and with one newline for each run of newlines. -/
def layout (ws : List Word) : List Word := collapse (ws.dropWhile (·.1 = .newline))

def StartsLine (ws : List Word) : Prop := ∀ w ∈ ws.head?, w.1 ≠ .newline

theorem collapse_append {us : List Word} (hus : ∀ u ∈ us, u.1 ≠ .newline) (ws : List Word) :
    collapse (us ++ ws) = us ++ collapse ws := by
  induction us with
  | nil => rfl
  | cons u us ih =>
    obtain ⟨hu, hus⟩ := List.forall_mem_cons.mp hus
    rw [List.cons_append, collapse, if_neg (fun h => hu h.1), ih hus, List.cons_append]

theorem collapse_newlines {ws : List Word} (h : StartsLine ws) (n : Nat) :
    collapse (newlineWord :: (newlines n ++ ws)) = newlineWord :: collapse ws := by
  induction n with
  | zero =>
    apply if_neg
    intro hnewline
    obtain ⟨w, hw, hk⟩ := Option.map_eq_some_iff.mp hnewline.2
    exact h w hw hk
  | succ n ih => exact (if_pos ⟨rfl, rfl⟩).trans ih

theorem collapse_line {us ws : List Word} (hus : ∀ u ∈ us, u.1 ≠ .newline) (h : StartsLine ws)
    (n : Nat) :
    collapse (us ++ newlineWord :: newlines n ++ ws) = us ++ newlineWord :: collapse ws := by
  rw [List.append_assoc, List.cons_append, collapse_append hus, collapse_newlines h]

theorem layout_newlines {ws : List Word} (h : StartsLine ws) (n : Nat) :
    layout (newlines n ++ ws) = collapse ws := by
  have hall : ∀ w ∈ newlines n, decide (w.1 = .newline) = true := by
    intro w hw
    rw [List.eq_of_mem_replicate hw]
    rfl
  rw [layout, List.dropWhile_append_of_pos hall]
  cases ws with
  | nil => rfl
  | cons w ws => rw [List.dropWhile_cons_of_neg (by simpa using h w rfl)]

theorem Chain.forall_mem_words {ω α : Type} {op : ω → Word} {item : α → List Word} {P : Word → Prop}
    (hop : ∀ o, P (op o)) (hitem : ∀ a, ∀ w ∈ item a, P w) (c : Chain ω α) :
    ∀ w ∈ c.words op item, P w := by
  intro w hw
  rcases List.mem_append.mp hw with hw | hw
  · exact hitem c.first w hw
  · obtain ⟨link, -, hw⟩ := List.mem_flatMap.mp hw
    rcases List.mem_cons.mp hw with rfl | hw
    · exact hop link.1
    · exact hitem link.2 w hw

theorem Factor.forall_mem_words {P : Word → Prop} (hsign : ∀ op : Additive, P op.word)
    (hoperand : ∀ o : Operand, P o.word) (f : Factor) : ∀ w ∈ f.words, P w := by
  intro w hw
  obtain ⟨sign, o⟩ := f
  rcases List.mem_append.mp hw with hw | hw
  · obtain ⟨op, -, rfl⟩ := Option.map_eq_some_iff.mp (Option.mem_toList.mp hw)
    exact hsign op
  · obtain rfl := List.mem_singleton.mp hw
    exact hoperand o

/-- What holds of operators and operands holds of the words of an expression. -/
theorem Expression.forall_mem_words {P : Word → Prop} (hadditive : ∀ op : Additive, P op.word)
    (hmultiplicative : ∀ op : Multiplicative, P op.word) (hoperand : ∀ o : Operand, P o.word)
    (e : Expression) : ∀ w ∈ e.words, P w :=
  Chain.forall_mem_words hadditive (Chain.forall_mem_words hmultiplicative
    (Factor.forall_mem_words hadditive hoperand)) e

theorem Expression.ne_newline (e : Expression) : ∀ w ∈ e.words, w.1 ≠ .newline := by
  refine e.forall_mem_words (by exact nofun) (by exact nofun) fun o => ?_
  cases o <;> exact nofun

theorem Condition.ne_newline (c : Condition) : ∀ w ∈ c.words, w.1 ≠ .newline :=
  c.chain.forall_mem_words (P := (·.1 ≠ .newline)) (fun _ => by exact nofun) Expression.ne_newline

theorem Simple.ne_newline (st : Simple) : ∀ w ∈ st.words, w.1 ≠ .newline := by
  cases st with
  | printValue e => exact List.forall_mem_cons.mpr ⟨nofun, e.ne_newline⟩
  | assign name e => simpa [words, Keyword.word, nameWord] using e.ne_newline
  | _ => simp [words, Keyword.word, nameWord]

theorem startsLine_cons {w : Word} (hw : w.1 ≠ .newline) (ws : List Word) :
    StartsLine (w :: ws) := by
  intro v hv
  obtain rfl : w = v := by simpa using hv
  exact hw

theorem startsLine_simple (st : Simple) (ws : List Word) : StartsLine (st.words ++ ws) := by
  cases st <;> exact startsLine_cons (by exact nofun) _

theorem startsLine_yields {prog : Program} {ws : List Word} (h : prog.Yields ws) {vs : List Word}
    (hvs : StartsLine vs) : StartsLine (ws ++ vs) := by
  cases h with
  | empty => exact hvs
  | simple n _ =>
    rw [List.append_assoc, List.append_assoc]
    exact startsLine_simple _ _
  | block m n _ _ => exact startsLine_cons (by exact nofun) _

theorem collapse_yields {prog : Program} {ws : List Word} (h : prog.Yields ws) {vs : List Word}
    (hvs : StartsLine vs) : collapse (ws ++ vs) = prog.words ++ collapse vs := by
  -- A run of newlines ends where the next line starts, in the program or after it.
  induction h generalizing vs with
  | empty => rfl
  | @simple st rest ws n hy ih =>
    have hline := collapse_line st.ne_newline (startsLine_yields hy hvs) n
    rw [List.append_assoc, hline, ih hvs, Program.words]
    simp
  | @block b c body rest us ws m n hbody hrest ihb ihr =>
    have hclose :
        StartsLine ([Keyword.word (.close b)] ++ newlineWord :: newlines n ++ (ws ++ vs)) :=
      startsLine_cons (by exact nofun) _
    have hhead : ∀ w ∈ Keyword.word (.head b) :: (c.words ++ [Keyword.word (.entry b)]),
        w.1 ≠ .newline := by
      simpa [Keyword.word, or_imp, forall_and] using c.ne_newline
    have hend : ∀ w ∈ [Keyword.word (.close b)], w.1 ≠ .newline := by simp [Keyword.word]
    have hwords : Keyword.word (.head b) :: c.words ++ Keyword.word (.entry b) :: newlineWord ::
        newlines m ++ us ++ Keyword.word (.close b) :: newlineWord :: newlines n ++ ws ++ vs =
          (Keyword.word (.head b) :: (c.words ++ [Keyword.word (.entry b)])) ++ newlineWord ::
            newlines m ++ (us ++ ([Keyword.word (.close b)] ++ newlineWord :: newlines n ++
              (ws ++ vs))) := by simp
    rw [hwords, collapse_line hhead (startsLine_yields hbody hclose), ihb hclose,
      collapse_line hend (startsLine_yields hrest hvs), ihr hvs, Program.words]
    simp

theorem layout_of_parses {prog : Program} {ws : List Word} (h : prog.Parses ws) :
    layout (ws ++ [eofWord]) = prog.words ++ [eofWord] := by
  obtain ⟨n, us, rfl, hy⟩ := h
  have heof : StartsLine [eofWord] := startsLine_cons (by exact nofun) []
  rw [List.append_assoc, layout_newlines (startsLine_yields hy heof), collapse_yields hy heof]
  rfl

/-- Each word of a tree stands in the program. -/
theorem words_subset_of_parses {prog : Program} {ws : List Word} (h : prog.Parses ws) :
    prog.words ⊆ ws := by
  obtain ⟨n, us, rfl, hy⟩ := h
  apply List.Subset.trans _ (List.subset_append_right _ _)
  induction hy with
  | empty => exact List.Subset.refl _
  | simple n _ ih =>
    intro w hw
    simp only [Program.words, List.mem_append, List.mem_cons] at hw ⊢
    rcases hw with hw | hw | hw
    · exact .inl (.inl hw)
    · exact .inl (.inr (.inl hw))
    · exact .inr (ih hw)
  | block m n _ _ ihb ihr =>
    intro w hw
    simp only [Program.words, List.mem_append, List.mem_cons] at hw ⊢
    grind

end TeenyToC
