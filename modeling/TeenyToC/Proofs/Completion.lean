import Mathlib.Data.List.Dedup
import TeenyToC.Proofs.Liveness

/-! Every compilation in progress can still be brought to an end, unless a label stands twice in it
(`completes_of_live`). In each phase there is a word that leads on: an operand is `0`, a condition
is compared once, a name is `x` or, after a label, one that is new, and a line ends. Then all blocks
are closed, and each label that a jump misses is set at the end. -/

namespace TeenyToC

theorem exists_length_le (names : List String) : ∃ n, ∀ x ∈ names, x.length ≤ n := by
  induction names with
  | nil => exact ⟨0, nofun⟩
  | cons x names ih =>
    obtain ⟨n, hn⟩ := ih
    refine ⟨max x.length n, List.forall_mem_cons.mpr ⟨by omega, fun y hy => ?_⟩⟩
    have hy := hn y hy
    omega

theorem valid_replicate (n : Nat) :
    (nameWord (String.ofList (List.replicate (n + 1) 'x'))).Valid := by
  have hname : isName (List.replicate (n + 1) 'x') := by
    rw [List.replicate_succ, isName, List.all_replicate]
    simp
  have hkeyword : Keyword.ofSpelling? (String.ofList (List.replicate (n + 1) 'x')) = none := by
    rw [Option.eq_none_iff_forall_ne_some]
    intro k hk
    -- Keywords are spelled with capitals.
    have hhead := congrArg (fun text => text.toList.head?) (Keyword.spelling_of_ofSpelling? hk)
    rcases k with _ | _ | _ | _ | _ | (_ | _) | (_ | _) | (_ | _) <;>
      simp [Keyword.spelling, List.replicate_succ] at hhead
  exact ⟨by simp [nameWord], by simp [nameWord, Kind.admits, hname, hkeyword]⟩

/-- A name that is longer than all of them. -/
theorem exists_fresh (names : List String) : ∃ x, x ∉ names ∧ (nameWord x).Valid := by
  obtain ⟨n, hn⟩ := exists_length_le names
  refine ⟨_, fun hmem => ?_, valid_replicate n⟩
  have hlength := hn _ hmem
  rw [String.length_ofList, List.length_replicate] at hlength
  omega

theorem Keyword.valid_word (k : Keyword) : k.word.Valid := ⟨nofun, by simp [word, Kind.admits]⟩

theorem valid_newlineWord : newlineWord.Valid := ⟨nofun, by decide⟩

theorem valid_zero : Word.Valid (.number, "0") := ⟨nofun, by decide⟩

namespace Compilation
variable {s m : Compilation} {p : Place} {w : Word} {us ws : List Word}

/-- Some words bring the program to an end. -/
def Completes (s : Compilation) : Prop :=
  ∃ ws s', (∀ w ∈ ws, w.Valid) ∧ s.read ws = .ok s' ∧ s'.phase = .statement ∧ s'.blocks = [] ∧
    ∀ jump ∈ s'.jumps, jump.text ∈ s'.labels

theorem Completes.of_read (hus : ∀ w ∈ us, w.Valid) (hread : s.read us = .ok m)
    (h : m.Completes) : s.Completes := by
  obtain ⟨ws, s', hws, hrest, hend⟩ := h
  exact ⟨us ++ ws, s', List.forall_mem_append.mpr ⟨hus, hws⟩,
    (read_append_of_ok hread).trans hrest, hend⟩

theorem Completes.of_step (hw : w.Valid) (hstep : s.step (.ofWord w) = .ok m)
    (h : m.Completes) : s.Completes :=
  .of_read (List.forall_mem_singleton.mpr hw) (read_singleton.trans hstep) h

/-- Lines that set labels. -/
def labelling (xs : List String) : Program :=
  xs.foldr (fun x rest => .simple (.label x) rest) .empty

def labelWords (xs : List String) : List Word :=
  xs.flatMap fun x => [Keyword.label.word, nameWord x, newlineWord]

theorem yields_labelling (xs : List String) : (labelling xs).Yields (labelWords xs) := by
  induction xs with
  | nil => exact .empty
  | cons x xs ih => exact .simple 0 ih

theorem mentions_labelling (xs : List String) :
    (labelling xs).mentions = xs.map fun x => ⟨.label, x⟩ := by
  induction xs with
  | nil => rfl
  | cons x xs ih => exact congrArg (⟨.label, x⟩ :: ·) ih

theorem namesOf_labelling (r : Role) (xs : List String) :
    namesOf r (labelling xs).mentions = if r = .label then xs else [] := by
  rw [mentions_labelling]
  induction xs with
  | nil => simp
  | cons x xs ih => cases r <;> simp_all

theorem read_labelling {xs : List String} (hs : s.phase = .statement) (hxs : xs.Nodup)
    (hnew : ∀ x ∈ xs, x ∉ s.labels) : s.read (labelWords xs) =
      .ok ((s.mentionAll (labelling xs).mentions).write (labelling xs).code) := by
  refine (read_yields (yields_labelling xs) hs).mpr ⟨admits_iff.mpr ⟨?_, ?_, ?_⟩, rfl⟩
  · intro before x after h
    rw [mentions_labelling] at h
    have hmem : (⟨.operand, x⟩ : Mention) ∈ xs.map fun x => ⟨.label, x⟩ := h ▸ by simp
    simp at hmem
  · simpa [namesOf_labelling] using hxs
  · simpa [namesOf_labelling] using hnew

theorem valid_labelWords {xs : List String} (h : ∀ x ∈ xs, (nameWord x).Valid) :
    ∀ w ∈ labelWords xs, w.Valid := by
  intro w hw
  obtain ⟨x, hx, hw⟩ := List.mem_flatMap.mp hw
  simp only [List.mem_cons, List.not_mem_nil, or_false] at hw
  rcases hw with rfl | rfl | rfl
  · exact Keyword.label.valid_word
  · exact h x hx
  · exact valid_newlineWord

/-- The labels that are missing, each once. -/
theorem exists_missing (s : Compilation) : ∃ xs : List String, xs.Nodup ∧
    ∀ x, x ∈ xs ↔ (∃ jump ∈ s.jumps, jump.text = x) ∧ x ∉ s.labels :=
  ⟨((s.jumps.map (·.text)).filter (· ∉ s.labels)).dedup, List.nodup_dedup _, by simp⟩

theorem completes_of_blocks_nil (hs : s.phase = .statement) (hb : s.blocks = [])
    (hjumps : s.JumpsValid) : s.Completes := by
  obtain ⟨missing, hnodup, hmem⟩ := exists_missing s
  have hread := read_labelling hs hnodup fun x hx => ((hmem x).mp hx).2
  refine ⟨labelWords missing, _, valid_labelWords fun x hx => ?_, hread, ?_, ?_, ?_⟩
  · obtain ⟨⟨jump, hjump, rfl⟩, -⟩ := (hmem x).mp hx
    exact hjumps jump hjump
  · exact (phase_mentionAll _).trans hs
  · exact (blocks_mentionAll _).trans hb
  · intro jump hjump
    change jump ∈ (s.mentionAll _).jumps at hjump
    change jump.text ∈ (s.mentionAll _).labels
    rw [jumps_mentionAll, namesOf_labelling] at hjump
    rw [labels_mentionAll, namesOf_labelling, List.mem_append]
    have hjump : jump ∈ s.jumps := by simpa using hjump
    by_cases h : jump.text ∈ s.labels
    · exact .inr h
    · exact .inl (List.mem_reverse.mpr ((hmem jump.text).mpr ⟨⟨jump, hjump, rfl⟩, h⟩))

theorem completes_of_statement (hs : s.phase = .statement)
    (hjumps : s.JumpsValid) : s.Completes := by
  -- The blocks are closed from the innermost on, with empty bodies from here.
  induction hb : s.blocks generalizing s with
  | nil => exact completes_of_blocks_nil hs hb hjumps
  | cons b bs ih =>
    have hclose := read_close hs hb 0 []
    refine .of_read ?_ hclose (ih (s := (s.write "\x7d\n").inside bs) hs hjumps rfl)
    simp [newlines, Keyword.valid_word, valid_newlineWord]

theorem completes_of_lineEnd (hs : s.phase = .lineEnd)
    (hjumps : s.JumpsValid) : s.Completes :=
  .of_step valid_newlineWord (step_newline_of_lineEnd hs) (completes_of_statement rfl hjumps)

theorem completes_of_labelled {name : Token} (hs : s.phase = .labelled name)
    (hnew : name.text ∉ s.labels) (hjumps : s.JumpsValid) :
    s.Completes := by
  let labelled := { s with phase := .lineEnd, labels := name.text :: s.labels }.writeLine
    (name.text ++ ":;")
  have hsettle : s.settle = .ok labelled := by
    rw [settle, hs]
    exact if_neg hnew
  have hstep : s.step (.ofWord newlineWord) = .ok (labelled.await .statement) := by
    rw [step, hsettle]
    rfl
  exact .of_step valid_newlineWord hstep (completes_of_statement rfl hjumps)

theorem completes_of_compared {b : Block} (hs : s.phase = .operator (.guard b true))
    (hjumps : s.JumpsValid) : s.Completes := by
  have hstep : s.step (.ofWord (Keyword.word (.entry b))) = .ok
      (({ s with blocks := b :: s.blocks }.writeLine ")\x7b").await .lineEnd) := by
    rw [step_operator hs]
    exact if_pos rfl
  exact .of_step (Keyword.valid_word _) hstep (completes_of_lineEnd rfl hjumps)

theorem step_number (hs : s.phase = .signed p ∨ s.phase = .operand p) (digits : String) :
    s.step (.ofWord (.number, digits)) = .ok ((s.write digits).await (.operator p)) := by
  rcases hs with hs | hs
  · exact step_signed hs
  · exact step_operand hs

theorem completes_of_operator (hs : s.phase = .operator p)
    (hjumps : s.JumpsValid) : s.Completes := by
  rcases p with _ | _ | ⟨b, _ | _⟩
  · have hstep : s.step (.ofWord newlineWord) = .ok ((s.writeLine "));").await .statement) :=
      step_operator hs
    exact .of_step valid_newlineWord hstep (completes_of_statement rfl hjumps)
  · have hstep : s.step (.ofWord newlineWord) = .ok ((s.writeLine ";").await .statement) :=
      step_operator hs
    exact .of_step valid_newlineWord hstep (completes_of_statement rfl hjumps)
  · have hstep : s.step (.ofWord Comparison.eq.word) =
        .ok ((s.write " == ").await (.signed (.guard b true))) := step_operator hs
    have hcompared : ((s.write " == ").await (.signed (.guard b true))).Completes :=
      .of_step valid_zero (step_number (.inl rfl) "0") (completes_of_compared rfl hjumps)
    exact .of_step ⟨by decide, by decide⟩ hstep hcompared
  · exact completes_of_compared hs hjumps

theorem completes_of_operand (hs : s.phase = .signed p ∨ s.phase = .operand p)
    (hjumps : s.JumpsValid) : s.Completes :=
  .of_step valid_zero (step_number hs "0") (completes_of_operator rfl hjumps)

theorem completes_of_equals (hs : s.phase = .equals)
    (hjumps : s.JumpsValid) : s.Completes := by
  have hstep : s.step (.ofWord (.equals, "=")) = .ok (s.await (.signed .assign)) := step_equals hs
  exact .of_step ⟨by decide, by decide⟩ hstep (completes_of_operand (.inl rfl) hjumps)

theorem completes_of_live (h : s.Live) : s.Completes := by
  have hjumps := h.jumps
  cases hs : s.phase with
  | statement => exact completes_of_statement hs hjumps
  | printed =>
    have hstep : s.step (.ofWord (.string, "")) =
        .ok ((s.writeLine ("printf(\"" ++ "" ++ "\\n\");")).await .lineEnd) := step_printed hs
    exact .of_step ⟨by decide, by decide⟩ hstep (completes_of_lineEnd rfl hjumps)
  | signed p => exact completes_of_operand (.inl hs) hjumps
  | operand p => exact completes_of_operand (.inr hs) hjumps
  | operator p => exact completes_of_operator hs hjumps
  | labelName =>
    obtain ⟨x, hnew, hx⟩ := exists_fresh s.labels
    exact .of_step hx (step_labelName hs) (completes_of_labelled rfl hnew hjumps)
  | gotoName =>
    obtain ⟨x, -, hx⟩ := exists_fresh []
    exact .of_step hx (step_gotoName hs)
      (completes_of_lineEnd rfl (List.forall_mem_cons.mpr ⟨hx, hjumps⟩))
  | letName =>
    obtain ⟨x, -, hx⟩ := exists_fresh []
    refine .of_step hx (step_letName hs) (completes_of_equals rfl ?_)
    simpa [JumpsValid, await, write, jumps_declare] using hjumps
  | inputName =>
    obtain ⟨x, -, hx⟩ := exists_fresh []
    refine .of_step hx (step_inputName hs) (completes_of_lineEnd rfl ?_)
    simpa [JumpsValid, await, input_eq, write, jumps_declare] using hjumps
  | labelled name => exact completes_of_labelled hs (h.fresh name hs) hjumps
  | equals => exact completes_of_equals hs hjumps
  | lineEnd => exact completes_of_lineEnd hs hjumps

end Compilation

end TeenyToC
