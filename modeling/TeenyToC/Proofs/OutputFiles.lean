import TeenyToC.Compiler
import TeenyToC.Proofs.FileChanges

/-! Compiling one file into another. The source is read and compiled as a whole before anything is
changed (`run_compileFile`), and the C text is written in one go, after directories have been made
(`run_writeText`). So `emit` either leaves the files as they were, or makes directories on the way
to the output, or does so and then replaces the output as a whole (`emit_all_or_nothing`). -/

namespace TeenyToC

namespace FileTree

variable {t t' t'' : FileTree} {path output : String} {bytes : ByteArray}

/-- The text of a file. -/
def text (t : FileTree) (path : String) : Except FileError String :=
  match t.read path with
  | .error e => .error e
  | .ok bytes =>
    match String.fromUTF8? bytes with
    | some text => .ok text
    | none => .error .notUtf8

/-- What compiling a file gives. -/
def compiled (t : FileTree) (path : String) : Except Failure CSource :=
  match t.text path with
  | .error e => .error (.read path e)
  | .ok source => (compile source).mapError .compile

/-- The file at a path holds the bytes given and no others, and nothing else has changed but that
directories have been made on the way to it. -/
structure Replaced (output : String) (bytes : ByteArray) (t t' : FileTree) : Prop where
  working : t'.working = t.working
  entry : ∃ place, t'.resolve output = .ok place ∧ t'.get? place = some (.file bytes) ∧
    t.get? place ≠ some .dir ∧ ∀ other ≠ place,
      t'.get? other = t.get? other ∨ NewDir (Files.Encloses · output) t t' other

theorem Replaced.read (h : Replaced output bytes t t') : t'.read output = .ok bytes := by
  obtain ⟨place, hplace, hfile, -⟩ := h.entry
  refine bind_eq_ok.mpr ⟨place, hplace, ?_⟩
  rw [hfile]
  rfl

theorem replaced_of_grown (hgrown : Grown (Files.Encloses · output) t t')
    (hwrite : t'.write output bytes = .ok t'') : Replaced output bytes t t'' := by
  obtain ⟨place, hfree, rfl, hplace⟩ := write_eq_ok hwrite
  refine ⟨hgrown.working, place, hplace, get?_insert_of_not_dir _ hfree,
    fun hdir => hfree (hgrown.keeps.dir hdir), fun other hother => ?_⟩
  rw [get?_insert_of_ne t' _ hother]
  exact (hgrown.entry other).imp_right (·.keeps (keeps_insert _ hfree))

theorem run_readText (t : FileTree) (path : String) :
    (Files.readText path : StateM FileTree _).run t = (t.text path, t) := by
  have hread : (Storage.read path : StateM FileTree _).run t = (t.read path, t) := rfl
  rw [Files.readText, run_bind_of hread, text]
  cases t.read path with
  | error e => rfl
  | ok bytes =>
    dsimp only
    cases String.fromUTF8? bytes <;> rfl

theorem run_writeText (t : FileTree) (path text : String) :
    (∃ t', (Files.writeText path text : StateM FileTree _).run t = (.ok (), t') ∧
      Replaced path text.toUTF8 t t') ∨
    ∃ e t', (Files.writeText path text : StateM FileTree _).run t = (.error e, t') ∧
      Grown (Files.Encloses · path) t t' := by
  have hgrown : Grown (Files.Encloses · path) t _ :=
    grows_makeDirs (fun _ => Files.encloses_of_mem_parents) t
  rcases hmade : (Files.makeDirs (Files.parents path) : StateM FileTree _).run t with ⟨made, t₁⟩
  rw [hmade] at hgrown
  rw [Files.writeText, run_bind_of hmade]
  cases made with
  | error e => exact .inr ⟨e, t₁, rfl, hgrown⟩
  | ok _ =>
    change (∃ t', (commit (·.write path text.toUTF8)).run t₁ = _ ∧ _) ∨
      ∃ e t', (commit (·.write path text.toUTF8)).run t₁ = _ ∧ _
    cases hwrite : t₁.write path text.toUTF8 with
    | error e => exact .inr ⟨e, t₁, run_commit_of_error hwrite, hgrown⟩
    | ok t₂ => exact .inl ⟨t₂, run_commit_of_ok hwrite, replaced_of_grown hgrown hwrite⟩

end FileTree

namespace Compiler
open FileTree

theorem run_compileFile (t : FileTree) (path : String) :
    ∃ log, (compileFile path : StateM FileTree _).run t = ((t.compiled path, log), t) := by
  rw [compileFile, run_bind_of (run_readText t path), compiled]
  cases t.text path with
  | error e => exact ⟨_, rfl⟩
  | ok source => exact ⟨_, rfl⟩

theorem run_writeTo {c : CSource} {t t' : FileTree} {output : String}
    {written : Except FileError Unit}
    (h : (Files.writeText output c.text : StateM FileTree _).run t = (written, t')) :
    (writeTo c output : StateM FileTree _).run t =
      ((written.mapError (.write output), [Log.writeRecord output c.text.utf8ByteSize]), t') := by
  rw [writeTo, CSource.writeFile, bind_assoc, run_bind_of h]
  rfl

/-- Nothing is written unless there is a C text to write. -/
theorem run_emit (t : FileTree) (s : Settings) (path : String) :
    (∃ f log, t.compiled path = .error f ∧
      (emit s path : StateM FileTree _).run t = ((.error f, log), t)) ∨
    (∃ c log t', t.compiled path = .ok c ∧
      (emit s path : StateM FileTree _).run t = ((.ok s.output, log), t') ∧
        Replaced s.output c.text.toUTF8 t t') ∨
    ∃ c e log t', t.compiled path = .ok c ∧
      (emit s path : StateM FileTree _).run t = ((.error (.write s.output e), log), t') ∧
        Grown (Files.Encloses · s.output) t t' := by
  obtain ⟨log, hcompiled⟩ := run_compileFile t path
  rw [emit, run_bind_of hcompiled]
  cases t.compiled path with
  | error f => exact .inl ⟨f, log, rfl, rfl⟩
  | ok c =>
    rcases run_writeText t s.output c.text with ⟨t', hrun, hreplaced⟩ | ⟨e, t', hrun, hgrown⟩
    · exact .inr (.inl ⟨c, log ++ _ ++ [Log.writtenRecord path s.output], t', rfl,
        run_bind_of (run_writeTo hrun), hreplaced⟩)
    · exact .inr (.inr ⟨c, e, log ++ _, t', rfl, run_bind_of (run_writeTo hrun), hgrown⟩)

/-- What compiling a file into another does to the files: nothing if there is no C text to write,
and otherwise the output is replaced as a whole, or no file is. -/
theorem emit_all_or_nothing (t : FileTree) (s : Settings) (path : String) :
    ∃ result log t', (emit s path : StateM FileTree _).run t = ((result, log), t') ∧
      match t.text path with
      | .error e => result = .error (.read path e) ∧ t' = t
      | .ok source =>
        match compile source with
        | .error e => result = .error (.compile e) ∧ t' = t
        | .ok c =>
          (result = .ok s.output ∧ Replaced s.output c.text.toUTF8 t t') ∨
            ∃ e, result = .error (.write s.output e) ∧
              Grown (Files.Encloses · s.output) t t' := by
  have hemit := run_emit t s path
  rw [compiled] at hemit
  cases htext : t.text path with
  | error e =>
    rw [htext] at hemit
    rcases hemit with ⟨_, log, ⟨⟩, hrun⟩ | ⟨_, _, _, ⟨⟩, _⟩ | ⟨_, _, _, _, ⟨⟩, _⟩
    exact ⟨_, log, t, hrun, rfl, rfl⟩
  | ok source =>
    rw [htext] at hemit
    dsimp only at hemit ⊢
    cases hcompile : compile source with
    | error e =>
      rw [hcompile] at hemit
      rcases hemit with ⟨_, log, ⟨⟩, hrun⟩ | ⟨_, _, _, ⟨⟩, _⟩ | ⟨_, _, _, _, ⟨⟩, _⟩
      exact ⟨_, log, t, hrun, rfl, rfl⟩
    | ok c =>
      rw [hcompile] at hemit
      rcases hemit with ⟨_, _, ⟨⟩, _⟩ | ⟨_, log, t', ⟨⟩, hrun, hreplaced⟩ |
        ⟨_, e, log, t', ⟨⟩, hrun, hgrown⟩
      · exact ⟨_, log, t', hrun, .inl ⟨rfl, hreplaced⟩⟩
      · exact ⟨_, log, t', hrun, .inr ⟨e, rfl, hgrown⟩⟩

end Compiler

end TeenyToC
