import TeenyToC.Proofs.Decoding
import TeenyToC.Proofs.RepeatedWrites

/-! Compiling a file again into the same output. A second run that reads the same program leaves all
files as they are, since what it writes is there already. It reads another one only if the output
is the file itself, which holds a C text then, and no C text is a program
(`compile_text_of_compile`). -/

namespace TeenyToC

namespace Window
variable {w : Window} {s m : Compilation}

theorem run_of_accepted {t : Token} {rest : Cursor} (hw : w.current.kind ≠ .eof)
    (hstep : s.step w.current = .ok m) (hnext : w.cursor.next = (.ok t, rest)) :
    (w.run s).1 = (run m ⟨w.ahead, t, rest⟩).1 := by
  rw [run, dif_neg hw, hstep]
  dsimp only
  split
  · next h => simp [hnext] at h
  · next h =>
    obtain ⟨rfl, rfl⟩ : t = _ ∧ rest = _ := by simpa [hnext] using h
    rfl

theorem run_of_refused {e : ParseError} (hw : w.current.kind ≠ .eof)
    (hstep : s.step w.current = .error e) : (w.run s).1 = .error (.parse e) := by
  rw [run, dif_neg hw, hstep]

end Window

/-- What a program starts with in C: a comment, and a line that is no statement. -/
def preamble : List Char := "#include <stdio.h>\nint main(void)\x7b\n".toList

theorem compile_of_preamble {source : String} (h : preamble <+: source.toList) :
    compile source = .error (.parse ⟨2, .invalidStatement "int" .ident⟩) := by
  obtain ⟨r, hr⟩ := h
  have hstart : Cursor.start source = ⟨preamble ++ (r ++ ['\n']), 1⟩ := by
    rw [Cursor.start, ← hr, List.append_assoc]
  generalize r ++ ['\n'] = rest at hstart
  have hline : (Cursor.start source).next =
      (.ok ⟨.newline, "\n", 1⟩, ⟨"int main(void)\x7b\n".toList ++ rest, 2⟩) := by
    rw [hstart]
    rfl
  have hword : Cursor.next ⟨"int main(void)\x7b\n".toList ++ rest, 2⟩ =
      (.ok ⟨.ident, "int", 2⟩, ⟨" main(void)\x7b\n".toList ++ rest, 2⟩) := by
    rfl
  have hname : Cursor.next ⟨" main(void)\x7b\n".toList ++ rest, 2⟩ =
      (.ok ⟨.ident, "main", 2⟩, ⟨"(void)\x7b\n".toList ++ rest, 2⟩) := by
    rfl
  have hempty : Compilation.start.step ⟨.newline, "\n", 1⟩ = .ok .start := rfl
  have hrefused : Compilation.start.step ⟨.ident, "int", 2⟩ =
      .error ⟨2, .invalidStatement "int" .ident⟩ := rfl
  rw [compile_of_next hline hword, Window.run_of_accepted (by simp) hempty hname,
    Window.run_of_refused (by simp) hrefused]
  rfl

/-- No C text is a program. -/
theorem compile_text_of_compile {source : String} {c : CSource} (h : compile source = .ok c) :
    compile c.text = .error (.parse ⟨2, .invalidStatement "int" .ident⟩) := by
  obtain ⟨-, prog, -, -, -, rfl⟩ := exists_tree h
  have hheader : prog.source.header = "#include <stdio.h>\nint main(void)\x7b\n" ++
      String.join (prog.targets.map fun x => "float " ++ x ++ ";\n") := rfl
  refine compile_of_preamble ?_
  rw [CSource.text, hheader, String.append_assoc, String.toList_append]
  exact List.prefix_append _ _

namespace FileTree
variable {t t' : FileTree} {path text : String} {c : CSource}

theorem fromUTF8?_toUTF8 (text : String) : String.fromUTF8? text.toUTF8 = some text := by
  rw [String.fromUTF8?, String.toUTF8_eq_toByteArray, dif_pos text.isValidUTF8]
  rfl

theorem text_eq_ok : t.text path = .ok text ↔
    ∃ bytes, t.read path = .ok bytes ∧ String.fromUTF8? bytes = some text := by
  unfold FileTree.text
  cases t.read path with
  | error e => simp
  | ok bytes =>
    cases hutf8 : String.fromUTF8? bytes <;> simp [hutf8]

theorem compiled_eq_ok :
    t.compiled path = .ok c ↔ ∃ source, t.text path = .ok source ∧ compile source = .ok c := by
  unfold FileTree.compiled
  cases t.text path with
  | error e => simp
  | ok source => cases hcompile : compile source <;> simp [hcompile, Except.mapError]

end FileTree

namespace Compiler
open FileTree
variable {t t' : FileTree} {s : Settings} {path source out : String} {c : CSource}
  {log : List Log.Record}

/-- What a run leaves in the log that writes the C text of a program. -/
def emitLog (s : Settings) (path source : String) (c : CSource) : List Log.Record :=
  Log.readRecord path source.utf8ByteSize :: (compileText source).2 ++
    [Log.writeRecord s.output c.text.utf8ByteSize] ++ [Log.writtenRecord path s.output]

theorem run_compileFile_of_compile (htext : t.text path = .ok source)
    (hcompile : compile source = .ok c) : (compileFile path : StateM FileTree _).run t =
      ((.ok c, Log.readRecord path source.utf8ByteSize :: (compileText source).2), t) := by
  have hresult : compileText source = (.ok c, (compileText source).2) := by
    refine Prod.ext ?_ rfl
    change (compile source).mapError Failure.compile = .ok c
    rw [hcompile]
    rfl
  rw [compileFile, run_bind_of (run_readText t path), htext]
  dsimp only
  rw [hresult]
  rfl

theorem run_emit_of_written (htext : t.text path = .ok source) (hcompile : compile source = .ok c)
    (hwrite : (Files.writeText s.output c.text : StateM FileTree _).run t = (.ok (), t')) :
    (emit s path : StateM FileTree _).run t = ((.ok s.output, emitLog s path source c), t') := by
  rw [emit, run_bind_of (run_compileFile_of_compile htext hcompile),
    run_bind_of (run_writeTo hwrite)]
  rfl

theorem run_emit_eq_ok : (emit s path : StateM FileTree _).run t = ((.ok out, log), t') ↔
    ∃ source c, t.text path = .ok source ∧ compile source = .ok c ∧
      (Files.writeText s.output c.text : StateM FileTree _).run t = (.ok (), t') ∧
        out = s.output ∧ log = emitLog s path source c := by
  constructor
  · intro h
    obtain ⟨c, hcompiled⟩ : ∃ c, t.compiled path = .ok c := by
      rcases run_emit t s path with ⟨f, log', -, hrun⟩ | ⟨c, -, -, hc, -⟩ | ⟨c, -, -, -, hc, -⟩
      · rw [hrun] at h
        cases h
      · exact ⟨c, hc⟩
      · exact ⟨c, hc⟩
    obtain ⟨source, htext, hcompile⟩ := compiled_eq_ok.mp hcompiled
    rcases hwrite : (Files.writeText s.output c.text : StateM FileTree _).run t with ⟨_ | _, t₁⟩
    · rw [emit, run_bind_of (run_compileFile_of_compile htext hcompile),
        run_bind_of (run_writeTo hwrite)] at h
      cases h
    · rw [run_emit_of_written htext hcompile hwrite] at h
      cases h
      exact ⟨source, c, htext, hcompile, hwrite, rfl, rfl⟩
  · rintro ⟨source, c, htext, hcompile, hwrite, rfl, rfl⟩
    exact run_emit_of_written htext hcompile hwrite

/-- Compiling a file again into the same output leaves everything as the first run left it, records
included, unless the output is the file itself, which then holds a C text and is refused. The
directories on the way to the output are those that the first run made, so it is told by the files
as they are then where the output leads to. -/
theorem emit_again_iff (h : (emit s path : StateM FileTree _).run t = ((.ok out, log), t')) :
    (emit s path : StateM FileTree _).run t' = ((.ok out, log), t') ↔
      t'.resolve s.output ≠ t'.resolve path := by
  obtain ⟨source, c, htext, hcompile, hwrite, rfl, rfl⟩ := run_emit_eq_ok.mp h
  have hreplaced := replaced_of_writeText hwrite
  constructor
  · intro hagain hsame
    obtain ⟨source', c', htext', hcompile', -⟩ := run_emit_eq_ok.mp hagain
    have hread : t'.read path = .ok c.text.toUTF8 := by
      rw [FileTree.read, ← hsame]
      exact hreplaced.read
    have hctext : t'.text path = .ok c.text := text_eq_ok.mpr ⟨_, hread, fromUTF8?_toUTF8 c.text⟩
    obtain rfl : c.text = source' := Except.ok.inj (hctext.symm.trans htext')
    rw [compile_text_of_compile hcompile] at hcompile'
    cases hcompile'
  · intro hne
    obtain ⟨bytes, hread, hutf8⟩ := text_eq_ok.mp htext
    have htext' : t'.text path = .ok source :=
      text_eq_ok.mpr ⟨bytes, hreplaced.read_of_ne hread hne, hutf8⟩
    exact run_emit_eq_ok.mpr
      ⟨source, c, htext', hcompile, run_writeText_again hwrite, rfl, rfl⟩

/-- The output goes up out of a directory that is not there, into a longer file. -/
theorem emit_again_iff_longer : ∃ t t' log,
    (emit ⟨"n/../o", true⟩ "p" : StateM FileTree _).run t = ((.ok "n/../o", log), t') ∧
      t.resolve "n/../o" = .error .notFound ∧ t'.resolve "n/../o" ≠ t'.resolve "p" ∧
        (emit ⟨"n/../o", true⟩ "p" : StateM FileTree _).run t' = ((.ok "n/../o", log), t') := by
  let t : FileTree := ⟨[(["p"], .file "".toUTF8),
    (["o"], .file (ByteArray.mk (.replicate 99 0)))], []⟩
  let t' : FileTree := ⟨[(["o"], .file
      "#include <stdio.h>\nint main(void)\x7b\nreturn 0;\n\x7d\n".toUTF8),
    (["n"], .dir), (["p"], .file "".toUTF8)], []⟩
  obtain ⟨log, hrun⟩ : ∃ log, (emit ⟨"n/../o", true⟩ "p" : StateM FileTree _).run t =
    ((.ok "n/../o", log), t') := ⟨_, by cbv⟩
  have hother : t'.resolve "n/../o" ≠ t'.resolve "p" := by
    have houtput : t'.resolve "n/../o" = .ok ["o"] := by cbv
    have hinput : t'.resolve "p" = .ok ["p"] := by cbv
    rw [houtput, hinput]
    simp
  exact ⟨t, t', log, hrun, by cbv, hother, (emit_again_iff hrun).mpr hother⟩

end Compiler

end TeenyToC
