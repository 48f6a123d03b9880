import TeenyToC.Proofs.Layout

/-! Where statements start. Each has a keyword of its own to start with, which stands nowhere else
in a program, so the statements of a tree, each before those in it, are the keywords of this kind
among its words (`heads_of_parses`). A step that is accepted takes such a keyword for the start of a
statement and no other token (`begins_of_step`). -/

namespace TeenyToC

/-- Whether a statement starts with the keyword. -/
def Keyword.leads : Keyword → Bool
  | .entry _ | .close _ => false
  | _ => true

def Kind.leads : Kind → Bool
  | .keyword k => k.leads
  | _ => false

def Simple.keyword : Simple → Keyword
  | printText _ | printValue _ => .print
  | label _ => .label
  | goto _ => .goto
  | assign _ _ => .assign
  | input _ => .input

/-- The keywords of the statements, that of a block before those in it. -/
def Program.heads : Program → List Keyword
  | empty => []
  | simple s rest => s.keyword :: rest.heads
  | block b _ body rest => .head b :: (body.heads ++ rest.heads)

/-- The statements that start among the words. -/
def leading (ws : List Word) : List Kind := (ws.map (·.1)).filter Kind.leads

section
variable {us ws : List Word} {w : Word}

theorem leading_append (us ws : List Word) : leading (us ++ ws) = leading us ++ leading ws := by
  simp [leading]

theorem leading_cons_of_leads (hw : w.1.leads) : leading (w :: ws) = w.1 :: leading ws := by
  simp [leading, hw]

theorem leading_cons_of_not (hw : w.1.leads = false) : leading (w :: ws) = leading ws := by
  simp [leading, hw]

theorem leading_eq_nil (h : ∀ w ∈ ws, w.1.leads = false) : leading ws = [] := by
  simpa [leading] using fun k text hw => h (k, text) hw

theorem leading_newlines (n : Nat) (ws : List Word) : leading (newlines n ++ ws) = leading ws := by
  have hempty : leading (newlines n) = [] := by
    refine leading_eq_nil fun w hw => ?_
    rw [List.eq_of_mem_replicate hw]
    rfl
  rw [leading_append, hempty, List.nil_append]

theorem leading_lineEnd (n : Nat) (ws : List Word) :
    leading (newlineWord :: newlines n ++ ws) = leading ws := leading_newlines (n + 1) ws

end

theorem Expression.leads_eq_false (e : Expression) : ∀ w ∈ e.words, w.1.leads = false := by
  refine e.forall_mem_words (fun _ => rfl) (fun _ => rfl) fun o => ?_
  cases o <;> rfl

theorem Condition.leads_eq_false (c : Condition) : ∀ w ∈ c.words, w.1.leads = false :=
  c.chain.forall_mem_words (P := (·.1.leads = false)) (fun _ => rfl) Expression.leads_eq_false

theorem leading_simple (st : Simple) : leading st.words = [.keyword st.keyword] := by
  cases st with
  | printValue e =>
    exact (leading_cons_of_leads rfl).trans (congrArg _ (leading_eq_nil e.leads_eq_false))
  | assign name e =>
    have hrest : leading e.words = [] := leading_eq_nil e.leads_eq_false
    rw [Simple.words, leading_append, hrest]
    rfl
  | _ => rfl

theorem leading_of_yields {prog : Program} {ws : List Word} (h : prog.Yields ws) :
    leading ws = prog.heads.map .keyword := by
  induction h with
  | empty => rfl
  | @simple st rest ws n _ ih =>
    rw [List.append_assoc, leading_append, leading_simple, leading_lineEnd, ih]
    rfl
  | @block b c body rest us ws m n _ _ ihb ihr =>
    have hwords : Keyword.word (.head b) :: c.words ++ Keyword.word (.entry b) :: newlineWord ::
        newlines m ++ us ++ Keyword.word (.close b) :: newlineWord :: newlines n ++ ws =
          Keyword.word (.head b) :: (c.words ++ ([Keyword.word (.entry b)] ++ (newlineWord ::
            newlines m ++ (us ++ ([Keyword.word (.close b)] ++ (newlineWord :: newlines n ++
              ws)))))) := by simp
    have hkeyword (k : Keyword) (hk : k.leads = false) : leading [k.word] = [] :=
      leading_cons_of_not hk
    rw [hwords, leading_cons_of_leads rfl, leading_append, leading_eq_nil c.leads_eq_false,
      leading_append, hkeyword _ rfl, leading_lineEnd, leading_append, ihb, leading_append,
      hkeyword _ rfl, leading_lineEnd, ihr, Program.heads, List.map_cons, List.map_append]
    rfl

/-- The keywords that lead in a program are those of its statements, in the order of the tree. -/
theorem heads_of_parses {prog : Program} {ws : List Word} (h : prog.Parses ws) :
    leading ws = prog.heads.map .keyword := by
  obtain ⟨n, us, rfl, hy⟩ := h
  rw [leading_newlines, leading_of_yields hy]

namespace Compilation
variable {s m : Compilation} {p : Place} {t : Token}

theorem exists_keyword_of_leads {k : Kind} (h : k.leads) :
    ∃ w, k = .keyword w ∧ ∀ b, w ≠ .entry b := by
  cases k with
  | keyword w =>
    refine ⟨w, rfl, fun b hb => ?_⟩
    rw [hb] at h
    cases h
  | _ => cases h

/-- Only where a statement may start does one start. -/
theorem accept_leads_ne_ok (ht : t.kind.leads) (hs : s.phase ≠ .statement) :
    s.accept t ≠ .ok m := by
  obtain ⟨w, hw, hentry⟩ := exists_keyword_of_leads ht
  unfold accept
  split
  · next hp => exact absurd hp hs
  · simp [printed, signed, operand, hw, fail]
  · simp [signed, operand, hw, fail]
  · simp [operand, hw, fail]
  · next p _ =>
    rcases p with _ | _ | ⟨b, _ | _⟩ <;> simp [operator, leave, expect, hw, hentry, fail]
  all_goals simp [expect, hw, fail]

theorem begins_of_begin (hs : s.phase = .statement) (h : s.begin t = .ok m) :
    s.begins t = t.kind.leads := by
  unfold begin at h
  by_cases hcloses : s.closes t
  · -- The keyword that closes a block is no start.
    have hclose : t.kind.leads = false := by
      unfold closes at hcloses
      split at hcloses
      · cases hcloses
      · rw [of_decide_eq_true hcloses]
        rfl
    simp [begins, hcloses, hclose]
  · rw [if_neg hcloses] at h
    split at h
    case h_8 => cases h
    all_goals
      next hk => simp [begins, hs, hcloses, hk, Kind.leads, Keyword.leads]

theorem begins_of_step (h : s.step t = .ok m) : s.begins t = t.kind.leads := by
  by_cases hs : s.phase = .statement
  · rw [step_statement hs] at h
    exact begins_of_begin hs h
  · have hbegins : s.begins t = false := by simp [begins, hs]
    rw [hbegins]
    cases ht : t.kind.leads with
    | false => rfl
    | true =>
      obtain ⟨r, hsettle, haccept⟩ := bind_eq_ok.mp h
      refine absurd haccept (accept_leads_ne_ok ht ?_)
      rcases phase_of_settle hsettle with hr | rfl
      · simp [hr]
      · exact hs

end Compilation

end TeenyToC
