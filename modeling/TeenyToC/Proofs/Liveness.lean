import TeenyToC.Proofs.Reading

/-! Names in a compilation in progress. Valid words leave only names behind that can stand in a
program again, and a label in hand that is not among those before it can be registered
(`live_of_read`). Almost no step touches the jumps or takes a label in hand. -/

namespace TeenyToC

namespace Compilation
variable {s m : Compilation} {p : Place} {t : Token}

/-- Each jump can be given its label. -/
def JumpsValid (s : Compilation) : Prop := ∀ jump ∈ s.jumps, (nameWord jump.text).Valid

/-- The names in a state can all stand in a program, and the label in hand is new. -/
structure Live (s : Compilation) : Prop where
  jumps : s.JumpsValid
  fresh : ∀ name, s.phase = .labelled name → name.text ∉ s.labels

/-- What most steps leave alone. -/
structure Keeps (s m : Compilation) : Prop where
  jumps : m.jumps = s.jumps
  labelled : ∀ name, m.phase ≠ .labelled name

theorem keeps_operand (h : s.operand p t = .ok m) : s.Keeps m := by
  unfold operand at h
  split at h
  · cases h
    exact ⟨rfl, nofun⟩
  · split at h
    · cases h
      exact ⟨rfl, nofun⟩
    · cases h
  · cases h

theorem keeps_signed (h : s.signed p t = .ok m) : s.Keeps m := by
  unfold signed at h
  split at h
  · cases h
    exact ⟨rfl, nofun⟩
  · exact keeps_operand h

theorem keeps_printed (h : s.printed t = .ok m) : s.Keeps m := by
  unfold printed at h
  split at h
  · cases h
    exact ⟨rfl, nofun⟩
  · obtain ⟨hjumps, hlabelled⟩ := keeps_signed h
    exact ⟨hjumps, hlabelled⟩

theorem keeps_leave (h : s.leave p t = .ok m) : s.Keeps m := by
  unfold leave at h
  split at h
  · obtain ⟨-, rfl⟩ := expect_eq_ok_iff.mp h
    exact ⟨rfl, nofun⟩
  · obtain ⟨-, rfl⟩ := expect_eq_ok_iff.mp h
    exact ⟨rfl, nofun⟩
  · cases h
  · obtain ⟨-, rfl⟩ := expect_eq_ok_iff.mp h
    exact ⟨rfl, nofun⟩

theorem keeps_operator (h : s.operator p t = .ok m) : s.Keeps m := by
  unfold operator at h
  split at h
  case h_4 => exact keeps_leave h
  all_goals
    cases h
    exact ⟨rfl, nofun⟩

theorem keeps_begin (hs : s.phase = .statement) (h : s.begin t = .ok m) : s.Keeps m := by
  unfold begin at h
  split at h
  · cases h
    exact ⟨rfl, nofun⟩
  · split at h
    case h_8 => cases h
    case h_1 =>
      cases h
      exact ⟨rfl, by simp [hs]⟩
    all_goals
      cases h
      exact ⟨rfl, nofun⟩

theorem accept_cases (h : s.accept t = .ok m) : s.Keeps m ∨
    (s.phase = .labelName ∧ t.kind = .ident ∧ m = s.await (.labelled t)) ∨
      (s.phase = .gotoName ∧ t.kind = .ident ∧ m.jumps = t :: s.jumps ∧
        ∀ name, m.phase ≠ .labelled name) := by
  unfold accept at h
  split at h
  · next hs => exact .inl (keeps_begin hs h)
  · exact .inl (keeps_printed h)
  · exact .inl (keeps_signed h)
  · exact .inl (keeps_operand h)
  · exact .inl (keeps_operator h)
  · next hs =>
    obtain ⟨hk, rfl⟩ := expect_eq_ok_iff.mp h
    exact .inr (.inl ⟨hs, hk, rfl⟩)
  · next hs =>
    obtain ⟨hk, rfl⟩ := expect_eq_ok_iff.mp h
    exact .inr (.inr ⟨hs, hk, rfl, by rintro _ ⟨⟩⟩)
  · obtain ⟨-, rfl⟩ := expect_eq_ok_iff.mp h
    exact .inl ⟨by simp [await, write, jumps_declare], by rintro _ ⟨⟩⟩
  · obtain ⟨-, rfl⟩ := expect_eq_ok_iff.mp h
    exact .inl ⟨rfl, by rintro _ ⟨⟩⟩
  · obtain ⟨-, rfl⟩ := expect_eq_ok_iff.mp h
    exact .inl ⟨by simp [await, input_eq, write, jumps_declare], by rintro _ ⟨⟩⟩
  all_goals
    obtain ⟨-, rfl⟩ := expect_eq_ok_iff.mp h
    exact .inl ⟨rfl, by rintro _ ⟨⟩⟩

theorem jumps_of_settle (h : s.settle = .ok m) : m.jumps = s.jumps := by
  unfold settle at h
  split at h
  · split at h
    · cases h
    · cases h
      rfl
  · cases h
    rfl

theorem jumps_of_step (h : s.step t = .ok m) :
    m.jumps = s.jumps ∨ t.kind = .ident ∧ m.jumps = t :: s.jumps := by
  obtain ⟨r, hsettle, haccept⟩ := bind_eq_ok.mp h
  have hr := jumps_of_settle hsettle
  rcases accept_cases haccept with ⟨hjumps, -⟩ | ⟨-, -, rfl⟩ | ⟨-, hk, hjumps, -⟩
  · exact .inl (hjumps.trans hr)
  · exact .inl hr
  · exact .inr ⟨hk, hr ▸ hjumps⟩

/-- A label is in hand only right after its name. -/
theorem labelName_of_step {name : Token} (h : s.step t = .ok m) (hm : m.phase = .labelled name) :
    s.phase = .labelName ∧ t.kind = .ident ∧ t = name := by
  obtain ⟨r, hsettle, haccept⟩ := bind_eq_ok.mp h
  rcases accept_cases haccept with ⟨-, hphase⟩ | ⟨hr, hk, rfl⟩ | ⟨-, -, -, hphase⟩
  · exact absurd hm (hphase name)
  · rcases phase_of_settle hsettle with hline | rfl
    · rw [hr] at hline
      cases hline
    · cases hm
      exact ⟨hr, hk, rfl⟩
  · exact absurd hm (hphase name)

theorem jumpsValid_of_read {us : List Word} (hus : ∀ w ∈ us, w.Valid)
    (hs : s.JumpsValid) (h : s.read us = .ok m) : m.JumpsValid := by
  induction us generalizing s with
  | nil =>
    cases h
    exact hs
  | cons w us ih =>
    obtain ⟨r, hstep, hread⟩ := read_cons_eq_ok.mp h
    obtain ⟨hw, hus⟩ := List.forall_mem_cons.mp hus
    refine ih hus ?_ hread
    rcases jumps_of_step hstep with hjumps | ⟨hk, hjumps⟩
    · rwa [JumpsValid, hjumps]
    · obtain ⟨kind, name⟩ := w
      obtain rfl : kind = .ident := hk
      rw [JumpsValid, hjumps]
      exact List.forall_mem_cons.mpr ⟨hw, hs⟩

theorem live_of_read {us : List Word} {r : Compilation} (hus : ∀ w ∈ us, w.Valid)
    (h : start.read us = .ok m) (hsettle : m.settle = .ok r) : m.Live := by
  refine ⟨jumpsValid_of_read hus (by simp [start, JumpsValid]) h, fun name hname hmem => ?_⟩
  rw [settle, hname] at hsettle
  simp [hmem, fail] at hsettle

end Compilation

end TeenyToC
