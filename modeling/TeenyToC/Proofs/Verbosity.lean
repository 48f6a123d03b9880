import Mathlib
import TeenyToC.Proofs.Arguments
import TeenyToC.Proofs.FileChanges
import TeenyToC.Tool

/-! What a run tells while it goes on. The flags for it can be left out of a command line without
any other change to what is asked for (`collect_bare`), and no action looks at them, so that runs
with and without them do the same in any storage and end alike (`run_silent`). Only the error stream
outside the report may tell them apart. -/

namespace TeenyToC

namespace CommandLine

/-- The flags for status lines and log records. -/
def Item.isTelling : Item → Bool
  | .quiet | .verbose => true
  | _ => false

/-- What a command line asks for, apart from what is told on the way. -/
def asked (args : List String) : List Item := (items args).filter (!·.isTelling)

example : asked ["-vqo", "x", "--verbose", "--", "-q"] = [.output "x", .source "-q"] := by cbv

def Request.bare (r : Request) : Request := { r with quiet := false, verbosity := 0 }

def Action.bare : Action → Action
  | .compile source r => .compile source r.bare
  | action => action

section
variable {r m : Request} {i : Item} {is : List Item} {args args' : List String}

theorem Request.Added.bare (h : r.Added i m) (hi : i.isTelling = false) :
    r.bare.Added i m.bare := by
  cases h with
  | source path h => exact .source path h
  | output path h => exact .output path h
  | config path h => exact .config path h
  | stdout h => exact .stdout h
  | quiet | verbose => cases hi

theorem Request.Added.bare_eq (h : r.Added i m) (hi : i.isTelling = true) : m.bare = r.bare := by
  cases h with
  | quiet | verbose => rfl
  | _ => cases hi

theorem collect_of_add (h : r.add i = some m) : collect r (i :: is) = collect m is := by
  obtain ⟨path, h⟩ | ⟨path, h⟩ | ⟨path, h⟩ | h | h | _ := add_eq_some.mp h <;> simp [collect, *]

/-- An item that is not taken settles the outcome, and not in favour of the line unless it asks for
something to be shown instead. -/
theorem collect_of_add_eq_none (h : r.add i = none) :
    collect r (i :: is) = .misuse ∨ i = .help ∨ i = .version := by
  cases i with
  | help | version => simp
  | verbose => cases h
  | _ => exact .inl (by simp_all [Request.add, collect])

/-- A command line that is not refused comes to the same without the flags. -/
theorem collect_bare (h : collect r is ≠ .misuse) :
    (collect r is).bare = collect r.bare (is.filter (!·.isTelling)) := by
  induction is generalizing r with
  | nil => cases hsource : r.source <;> simp [collect, Request.bare, Action.bare, hsource]
  | cons i is ih =>
    cases hadd : r.add i with
    | some m =>
      -- A flag is left out of the line, and any other item is added to a request without flags.
      rw [collect_of_add hadd] at h ⊢
      rw [ih h]
      cases hi : i.isTelling with
      | true => rw [List.filter_cons_of_neg (by simp [hi]), (add_eq_some.mp hadd).bare_eq hi]
      | false =>
        rw [List.filter_cons_of_pos (by simp [hi]),
          collect_of_add (add_eq_some.mpr ((add_eq_some.mp hadd).bare hi))]
    | none =>
      rcases collect_of_add_eq_none hadd with hmisuse | rfl | rfl
      · exact absurd hmisuse h
      · rfl
      · rfl

theorem parse_bare (h : parse args ≠ .misuse) (h' : parse args' ≠ .misuse)
    (hasked : asked args = asked args') : (parse args).bare = (parse args').bare := by
  unfold asked at hasked
  rw [parse, parse, collect_bare h, collect_bare h', hasked]

end

end CommandLine

namespace Tool
open CommandLine

/-- The outcome without its error stream. -/
def Outcome.silent (o : Outcome) : Outcome := { o with stderr := "" }

variable {m : Type → Type} [Monad m]

section
variable [LawfulMonad m]

theorem silent_pure {o o' : Outcome} (h : o.silent = o'.silent) :
    Outcome.silent <$> (pure o : m _) = Outcome.silent <$> pure o' := by
  rw [map_pure, map_pure, h]

theorem silent_bind {α : Type} (x : m α) {f g : α → m Outcome}
    (h : ∀ a, Outcome.silent <$> f a = Outcome.silent <$> g a) :
    Outcome.silent <$> (x >>= f) = Outcome.silent <$> (x >>= g) := by
  rw [map_bind, map_bind]
  exact bind_congr h

end

variable [Storage m]

theorem emit_eq_of_output {s s' : Settings} (h : s.output = s'.output) (path : String) :
    (Compiler.emit s path : m _) = Compiler.emit s' path := by
  rw [Compiler.emit, Compiler.emit, h]

/-- The settings before the command line has its word. -/
def loaded (r : Request) : m (Except SettingsError Settings) :=
  match r.config with
  | none => pure (.ok .initial)
  | some path => Settings.ofFile path

variable [LawfulMonad m]

theorem resolve_eq (r : Request) :
    (resolve r : m _) = (fun loaded => loaded.map (override r)) <$> loaded r := by
  unfold resolve loaded
  cases r.config with
  | none => exact (map_pure (Except.map (override r)) (Except.ok Settings.initial)).symm
  | some path => exact (map_eq_pure_bind (Except.map (override r)) (Settings.ofFile path)).symm

theorem compile_silent (source : String) {r r' : Request} {s s' : Settings}
    (hstdout : r.stdout = r'.stdout) (houtput : s.output = s'.output) :
    Outcome.silent <$> (compile source r s : m _) = Outcome.silent <$> compile source r' s' := by
  rw [compile, compile, ← hstdout, emit_eq_of_output houtput]
  dsimp only
  -- The settings and the verbosity come in only once all files have been read and written.
  split
  · refine silent_bind _ fun result => ?_
    obtain ⟨_ | c, log⟩ := result
    · exact silent_pure rfl
    · exact silent_pure rfl
  · refine silent_bind _ fun result => ?_
    obtain ⟨_ | path, log⟩ := result
    · exact silent_pure rfl
    · exact silent_pure rfl

/-- Two runs that are asked for the same do the same and end alike, whatever they tell. -/
theorem run_silent {args args' : List String} (h : parse args ≠ .misuse)
    (h' : parse args' ≠ .misuse) (hasked : asked args = asked args') :
    Outcome.silent <$> (run args : m _) = Outcome.silent <$> run args' := by
  have hbare := parse_bare h h' hasked
  rw [run, run]
  cases hline : parse args with
  | misuse => exact absurd hline h
  | help =>
    cases hline' : parse args' with
    | help => rfl
    | _ =>
      rw [hline, hline'] at hbare
      cases hbare
  | version =>
    cases hline' : parse args' with
    | version => rfl
    | _ =>
      rw [hline, hline'] at hbare
      cases hbare
  | compile source r =>
    cases hline' : parse args' with
    | compile source' r' =>
      rw [hline, hline'] at hbare
      obtain ⟨rfl, hr⟩ : source = source' ∧ r.bare = r'.bare := Action.compile.inj hbare
      have hstdout : r.stdout = r'.stdout := congrArg (·.stdout) hr
      have houtput : r.output = r'.output := congrArg (·.output) hr
      have hloaded : (loaded r : m _) = loaded r' := by
        have hconfig : r.config = r'.config := congrArg (·.config) hr
        rw [loaded, loaded, hconfig]
      dsimp only
      rw [resolve_eq, resolve_eq, hloaded, bind_map_left, bind_map_left]
      refine silent_bind _ fun result => ?_
      cases result with
      | error e => rfl
      | ok s => exact compile_silent source hstdout (by simp only [override, houtput])
    | _ =>
      rw [hline, hline'] at hbare
      cases hbare

/-- Of two accepted command lines that ask for the same, the flags for status lines and log records
make no difference but to the error stream. -/
theorem flags_only_tell {args args' : List String} (h : parse args ≠ .misuse)
    (h' : parse args' ≠ .misuse) (hasked : asked args = asked args') (t : FileTree) :
    ∃ o o' t', (run args : StateM FileTree _).run t = (o, t') ∧
      (run args' : StateM FileTree _).run t = (o', t') ∧
        o.exit = o'.exit ∧ o.stdout = o'.stdout ∧ o.report = o'.report := by
  have hruns := congrArg (StateT.run · t) (run_silent (m := StateM FileTree) h h' hasked)
  rcases hrun : (run args : StateM FileTree _).run t with ⟨o, t₁⟩
  rcases hrun' : (run args' : StateM FileTree _).run t with ⟨o', t₂⟩
  simp only [StateT.run_map, hrun, hrun'] at hruns
  obtain ⟨hsilent, rfl⟩ : o.silent = o'.silent ∧ t₁ = t₂ := Prod.mk.inj hruns
  exact ⟨o, o', t₁, rfl, rfl, congrArg (·.exit) hsilent, congrArg (·.stdout) hsilent,
    congrArg (·.report) hsilent⟩

/-- A run that tells all it does, and one that tells nothing. -/
theorem flags_only_tell_settings :
    ∃ t o o' t', (run ["-vvv", "p", "--config=c", "-v"] : StateM FileTree _).run t = (o, t') ∧
      (run ["p", "--config=c", "-q"] : StateM FileTree _).run t = (o', t') ∧
        o.exit = o'.exit ∧ o.stdout = o'.stdout ∧ o.report = o'.report := by
  have h : parse ["-vvv", "p", "--config=c", "-v"] ≠ .misuse := by
    have hline : parse ["-vvv", "p", "--config=c", "-v"] =
        .compile "p" ⟨some "p", none, some "c", false, false, 4⟩ := by cbv
    simp [hline]
  have h' : parse ["p", "--config=c", "-q"] ≠ .misuse := by
    have hline : parse ["p", "--config=c", "-q"] =
        .compile "p" ⟨some "p", none, some "c", false, true, 0⟩ := by cbv
    simp [hline]
  have hasked : asked ["-vvv", "p", "--config=c", "-v"] = asked ["p", "--config=c", "-q"] := by cbv
  let t : FileTree := ⟨[(["p"], .file "".toUTF8), (["c"], .file "output = 'd/o'".toUTF8)], []⟩
  exact ⟨t, flags_only_tell h h' hasked t⟩

end Tool

end TeenyToC
