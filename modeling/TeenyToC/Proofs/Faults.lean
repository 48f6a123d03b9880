import TeenyToC.Proofs.Words

/-! What an error says. A step that fails has failed on the token it was given, and a fault quotes
that token, or else the label before it (`settle_error`). -/

namespace TeenyToC

/-- The parts of the token that the fault tells. -/
def ParseFault.Quotes (t : Token) : ParseFault → Prop
  | expected _ found => t.kind = found
  | missingComparator text => t.text = text
  | undeclaredVariable name | duplicateLabel name | undeclaredLabel name =>
    t.kind = .ident ∧ t.text = name
  | invalidStatement text kind | unexpectedOperand text kind => t.kind = kind ∧ t.text = text

namespace Compilation
variable {s m : Compilation} {p : Place} {t : Token} {e : ParseError}

theorem expect_error {wanted : Kind} (h : expect t wanted s = .error e) :
    e.line = t.line ∧ e.fault.Quotes t := by
  unfold expect at h
  split at h
  · cases h
  · cases h
    exact ⟨rfl, rfl⟩

theorem operand_error (h : s.operand p t = .error e) : e.line = t.line ∧ e.fault.Quotes t := by
  unfold operand at h
  split at h
  · cases h
  · next hk =>
    split at h
    · cases h
    · cases h
      exact ⟨rfl, hk, rfl⟩
  · cases h
    exact ⟨rfl, rfl, rfl⟩

theorem signed_error (h : s.signed p t = .error e) : e.line = t.line ∧ e.fault.Quotes t := by
  unfold signed at h
  split at h
  · cases h
  · exact operand_error h

theorem leave_error (h : s.leave p t = .error e) : e.line = t.line ∧ e.fault.Quotes t := by
  unfold leave at h
  split at h
  case h_3 =>
    cases h
    exact ⟨rfl, rfl⟩
  all_goals exact expect_error h

theorem accept_error (h : s.accept t = .error e) : e.line = t.line ∧ e.fault.Quotes t := by
  unfold accept at h
  split at h
  · unfold begin at h
    split at h
    · cases h
    · split at h
      case h_8 =>
        cases h
        exact ⟨rfl, rfl, rfl⟩
      all_goals cases h
  · unfold printed at h
    split at h
    · cases h
    · exact signed_error h
  · exact signed_error h
  · exact operand_error h
  · unfold operator at h
    split at h
    case h_4 => exact leave_error h
    all_goals cases h
  all_goals exact expect_error h

theorem settle_error (h : s.settle = .error e) : ∃ name, s.phase = .labelled name ∧
    e = ⟨name.line, .duplicateLabel name.text⟩ := by
  unfold settle at h
  split at h
  · next name hname =>
    split at h
    · cases h
      exact ⟨name, hname, rfl⟩
    · cases h
  · cases h

/-- At the end of the text, a jump without its label is what else can be found. -/
theorem finish_error {r : Compilation} (hsettle : s.settle = .ok r) (h : s.finish t = .error e)
    (hne : ∀ x, e.fault ≠ .undeclaredLabel x) : e.line = t.line ∧ e.fault.Quotes t := by
  rw [finish, hsettle] at h
  simp only [bind, Except.bind] at h
  split at h
  · split at h
    · cases h
      exact absurd rfl (hne _)
    · cases h
  · cases h
    exact ⟨rfl, rfl⟩
  · exact accept_error h

/-- The step that fails, and the tokens before it. -/
theorem through_error {ts : List Token} (h : s.through ts = .error e) :
    ∃ us t rest m, ts = us ++ t :: rest ∧ (∀ u ∈ us, u.kind ≠ .eof) ∧ s.feed us = .ok m ∧
      (t.kind ≠ .eof ∧ m.step t = .error e ∨ t.kind = .eof ∧ m.finish t = .error e) := by
  induction ts generalizing s with
  | nil => cases h
  | cons t ts ih =>
    by_cases ht : t.kind = .eof
    · rw [through_of_eof ht] at h
      exact ⟨[], t, ts, s, rfl, nofun, rfl, .inr ⟨ht, h⟩⟩
    · rw [through_of_ne_eof ht] at h
      cases hstep : s.step t with
      | error e' =>
        rw [hstep] at h
        cases h
        exact ⟨[], t, ts, s, rfl, nofun, rfl, .inl ⟨ht, hstep⟩⟩
      | ok r =>
        rw [hstep] at h
        obtain ⟨us, u, rest, m, rfl, hus, hfeed, hcase⟩ := ih h
        refine ⟨t :: us, u, rest, m, rfl, List.forall_mem_cons.mpr ⟨ht, hus⟩, ?_, hcase⟩
        rw [feed, List.foldlM_cons, hstep]
        exact hfeed

end Compilation

end TeenyToC
