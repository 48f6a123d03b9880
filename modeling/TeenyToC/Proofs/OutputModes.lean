import Mathlib
import TeenyToC.Proofs.Arguments
import TeenyToC.Proofs.OutputFiles
import TeenyToC.Tool

/-! The two ways the tool hands over a C text. With `--stdout` it is printed and no file changes,
and without it goes where the settings say. Both run the same way up to the C text
(`run_compile_stdout`, `run_compile_file`), so they only part where it is written
(`output_modes_agree`). -/

namespace TeenyToC

namespace Settings

def outputOf : String × Toml.Node → Option String
  | (key, .value (.string path)) => if key = "output" then some path else none
  | _ => none

/-- The paths that the entries of a table give for the output. -/
def outputs (es : Toml.Entries) : List String := es.filterMap outputOf

theorem outputs_append (es es' : Toml.Entries) : outputs (es ++ es') = outputs es ++ outputs es' :=
  List.filterMap_append

theorem output_set {s s' : Settings} {key : String} {n : Toml.Node}
    (h : s.set key n = .ok s') : s'.output = (outputs [(key, n)]).getLast?.getD s.output := by
  unfold set at h
  split_ifs at h with hkey hquiet
  · split at h
    · cases h
      simp [outputs, outputOf, hkey]
    · cases h
  · have hother : outputOf (key, n) = none := by
      unfold outputOf
      split <;> simp_all
    split at h
    · cases h
      simp [outputs, hother]
    · cases h

theorem output_fold {s s' : Settings} {es : Toml.Entries}
    (h : es.foldlM (fun s e => s.set e.1 e.2) s = .ok s') :
    s'.output = (outputs es).getLast?.getD s.output := by
  induction es generalizing s with
  | nil =>
    cases h
    rfl
  | cons e es ih =>
    rw [List.foldlM_cons] at h
    obtain ⟨m, hset, hfold⟩ := bind_eq_ok.mp h
    rw [ih hfold, output_set hset, ← List.singleton_append (l := es), outputs_append,
      List.getLast?_append]
    cases (outputs es).getLast? <;> rfl

theorem ofText_eq_ok {text : String} {s : Settings} (h : ofText text = .ok s) :
    ∃ es, Toml.parse? text = some es ∧ ofEntries es = .ok s := by
  unfold ofText at h
  split at h
  · cases h
  · next es hparse =>
    cases hentries : ofEntries es with
    | error m =>
      rw [hentries] at h
      cases h
    | ok s' =>
      rw [hentries] at h
      exact ⟨es, hparse, hentries.trans (congrArg Except.ok (Except.ok.inj h))⟩

end Settings

namespace FileTree

/-- The settings in a file. -/
def settings (t : FileTree) (config : String) : Except SettingsError Settings :=
  match t.text config with
  | .error e => .error (.unreadable config e)
  | .ok text => Settings.ofText text

theorem run_ofFile (t : FileTree) (config : String) :
    (Settings.ofFile config : StateM FileTree _).run t = (t.settings config, t) := by
  rw [Settings.ofFile, run_bind_of (run_readText t config), settings]
  cases t.text config <;> rfl

/-- The output that a settings file names. -/
def configOutput (t : FileTree) (config : String) : Option String := do
  let text ← (t.text config).toOption
  let es ← Toml.parse? text
  (Settings.outputs es).getLast?

theorem output_of_settings {t : FileTree} {config : String} {s : Settings}
    (h : t.settings config = .ok s) : s.output = (t.configOutput config).getD "out.c" := by
  cases htext : t.text config with
  | error e =>
    rw [settings, htext] at h
    cases h
  | ok text =>
    rw [settings, htext] at h
    obtain ⟨es, hparse, hentries⟩ := Settings.ofText_eq_ok h
    rw [Settings.output_fold hentries]
    simp [configOutput, htext, hparse, Except.toOption, Settings.initial]

/-- Where the C text goes: to the path on the command line, else to the one in the settings file,
else to the usual one. -/
def outputPath (t : FileTree) (r : CommandLine.Request) : String :=
  (r.output <|> r.config.bind t.configOutput).getD "out.c"

end FileTree

namespace Tool
open CommandLine FileTree

theorem run_resolve (t : FileTree) (r : Request) :
    ∃ resolved, (resolve r : StateM FileTree _).run t = (resolved, t) ∧
      ∀ s, resolved = .ok s → s.output = t.outputPath r := by
  cases hconfig : r.config with
  | none =>
    refine ⟨.ok (override r .initial), by rw [resolve, hconfig]; rfl, ?_⟩
    rintro s ⟨⟩
    cases houtput : r.output <;> simp [override, outputPath, houtput, hconfig, Settings.initial]
  | some config =>
    refine ⟨(t.settings config).map (override r), ?_, ?_⟩
    · rw [resolve, hconfig]
      exact run_bind_of (run_ofFile t config)
    · intro s hs
      cases hsettings : t.settings config with
      | error e =>
        rw [hsettings] at hs
        cases hs
      | ok s' =>
        rw [hsettings] at hs
        obtain rfl : override r s' = s := Except.ok.inj hs
        cases houtput : r.output <;>
          simp [override, outputPath, houtput, hconfig, output_of_settings hsettings]

theorem run_compile_stdout (t : FileTree) (source : String) {r : Request} (s : Settings)
    (hstdout : r.stdout = true) :
    ∃ o, (compile source r s : StateM FileTree _).run t = (o, t) ∧
      match t.compiled source with
      | .error f => o.exit = 1 ∧ o.stdout = "" ∧ o.report = f.chain
      | .ok c => o.exit = 0 ∧ o.stdout = c.text := by
  obtain ⟨log, hrun⟩ := Compiler.run_compileFile t source
  rw [compile, hstdout]
  dsimp only
  rw [if_pos rfl, run_bind_of hrun]
  cases t.compiled source with
  | error f => exact ⟨_, rfl, rfl, rfl, rfl⟩
  | ok c => exact ⟨_, rfl, rfl, rfl⟩

theorem run_compile_file (t : FileTree) (source : String) {r : Request} (s : Settings)
    (hstdout : r.stdout = false) :
    ∃ o t', (compile source r s : StateM FileTree _).run t = (o, t') ∧
      match t.compiled source with
      | .error f => o.exit = 1 ∧ o.report = f.chain ∧ t' = t
      | .ok c =>
        (o.exit = 0 ∧ o.stdout = "" ∧ t'.read s.output = .ok c.text.toUTF8) ∨
          ∃ e, o.exit = 1 ∧ o.report = (Failure.write s.output e).chain := by
  rw [compile, hstdout]
  dsimp only
  rw [if_neg Bool.false_ne_true]
  rcases Compiler.run_emit t s source with ⟨f, log, hcompiled, hrun⟩ |
    ⟨c, log, t', hcompiled, hrun, hreplaced⟩ | ⟨c, e, log, t', hcompiled, hrun, -⟩
  · rw [run_bind_of hrun, hcompiled]
    exact ⟨_, t, rfl, rfl, rfl, rfl⟩
  · rw [run_bind_of hrun, hcompiled]
    exact ⟨_, t', rfl, .inl ⟨rfl, rfl, hreplaced.read⟩⟩
  · rw [run_bind_of hrun, hcompiled]
    exact ⟨_, t', rfl, .inr ⟨e, rfl, rfl⟩⟩

/-- A run that prints the C text changes nothing, and a run that writes it differs only in that
writing may fail. Otherwise both leave the same text or fail with the same report. -/
theorem output_modes_agree {xs ys : List String} {source source' : String} {r r' : Request}
    (hfile : parse (xs ++ ys) = .compile source r)
    (hstdout : parse (xs ++ "--stdout" :: ys) = .compile source' r') (t : FileTree) :
    ∃ file out t', (run (xs ++ ys) : StateM FileTree _).run t = (file, t') ∧
      (run (xs ++ "--stdout" :: ys) : StateM FileTree _).run t = (out, t) ∧
        ((out.exit = 0 ∧ file.exit = 0 ∧ file.stdout = "" ∧
            t'.read (t.outputPath r) = .ok out.stdout.toUTF8) ∨
          (out.exit = 0 ∧ file.exit = 1 ∧
            ∃ e, file.report = (Failure.write (t.outputPath r) e).chain) ∨
          (out.exit = 1 ∧ out.stdout = "" ∧ file.exit = 1 ∧ file.report = out.report ∧
            t' = t)) := by
  obtain ⟨rfl, hfalse, rfl⟩ := parse_stdout hfile hstdout
  obtain ⟨resolved, hresolve, houtput⟩ := run_resolve t r
  have hresolve' : (resolve { r with stdout := true } : StateM FileTree _).run t =
      (resolved, t) := hresolve
  rw [run, run, hfile, hstdout]
  dsimp only
  rw [run_bind_of hresolve, run_bind_of hresolve']
  cases resolved with
  | error e => exact ⟨_, _, t, rfl, rfl, .inr (.inr ⟨rfl, rfl, rfl, rfl, rfl⟩)⟩
  | ok s =>
    obtain ⟨out, hout, hprinted⟩ :=
      run_compile_stdout t source' (r := { r with stdout := true }) s rfl
    obtain ⟨file, t', hfile, hwritten⟩ := run_compile_file t source' s hfalse
    refine ⟨file, out, t', hfile, hout, ?_⟩
    rw [← houtput s rfl]
    cases hcompiled : t.compiled source' with
    | error f =>
      rw [hcompiled] at hprinted hwritten
      obtain ⟨houtExit, hnothing, houtReport⟩ := hprinted
      obtain ⟨hexit, hreport, rfl⟩ := hwritten
      exact .inr (.inr ⟨houtExit, hnothing, hexit, hreport.trans houtReport.symm, rfl⟩)
    | ok c =>
      rw [hcompiled] at hprinted hwritten
      obtain ⟨houtExit, htext⟩ := hprinted
      rw [htext]
      rcases hwritten with ⟨hexit, hnothing, hread⟩ | ⟨e, hexit, hreport⟩
      · exact .inl ⟨houtExit, hexit, hnothing, hread⟩
      · exact .inr (.inl ⟨houtExit, hexit, e, hreport⟩)

/-- The C text of an empty program, for which a settings file names an output in a directory that
is not there. -/
theorem output_modes_agree_settings :
    ∃ t file out t', (run ["p", "--config", "c"] : StateM FileTree _).run t = (file, t') ∧
      (run ["--stdout", "p", "--config", "c"] : StateM FileTree _).run t = (out, t) ∧
        out.exit = 0 ∧ file.exit = 0 ∧ file.stdout = "" ∧ t.read "d/o" = .error .notFound ∧
          t'.read "d/o" = .ok out.stdout.toUTF8 := by
  have hfile : parse ([] ++ ["p", "--config", "c"]) =
      .compile "p" ⟨some "p", none, some "c", false, false, 0⟩ := by cbv
  have hstdout : parse ([] ++ "--stdout" :: ["p", "--config", "c"]) =
      .compile "p" ⟨some "p", none, some "c", true, false, 0⟩ := by cbv
  let t : FileTree := ⟨[(["p"], .file "".toUTF8), (["c"], .file "output = 'd/o'".toUTF8)], []⟩
  have hexit : ((run ["p", "--config", "c"] : StateM FileTree _).run t).1.exit = 0 := by cbv
  have hpath : t.outputPath ⟨some "p", none, some "c", false, false, 0⟩ = "d/o" := by cbv
  obtain ⟨file, out, t', hrun, hrun', hcases⟩ := output_modes_agree hfile hstdout t
  have hzero : file.exit = 0 := by
    rw [← hexit, ← List.nil_append ["p", "--config", "c"], hrun]
  refine ⟨t, file, out, t', hrun, hrun', ?_⟩
  rcases hcases with ⟨hout, -, hnothing, hread⟩ | ⟨-, hone, -⟩ | ⟨-, -, hone, -⟩
  · rw [hpath] at hread
    exact ⟨hout, hzero, hnothing, by cbv, hread⟩
  · rw [hzero] at hone
    cases hone
  · rw [hzero] at hone
    cases hone

end Tool

end TeenyToC
