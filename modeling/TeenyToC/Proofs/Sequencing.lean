import Mathlib.Data.List.Induction
import TeenyToC.Proofs.Acceptance
import TeenyToC.Proofs.Decoding
import TeenyToC.Proofs.LineBoundaries
import TeenyToC.Proofs.Scoping

/-! One program after another. A newline between two texts keeps their lexemes and trivia apart, so
the words of the whole are those of the parts (`words_append`); the trees are joined
(`Program.append`), with the empty lines in between left to the first; and the names keep the rules
as long as no label stands in both. The second part adds to the header what the first has not
declared (`compile_append`). -/

namespace TeenyToC

theorem words_append {p q : String} {ts us : List Token} {ws vs : List Word}
    (hts : tokenize p = .ok ts) (hws : ts.map Token.word = ws ++ [eofWord])
    (hus : tokenize q = .ok us) (hvs : us.map Token.word = vs ++ [eofWord]) :
    ∃ rs, tokenize (p ++ "\n" ++ q) = .ok rs ∧ rs.map Token.word = ws ++ vs ++ [eofWord] := by
  obtain ⟨ts, rfl, hdrain⟩ := Cursor.drain_join hts q
  rw [List.map_append] at hws
  obtain ⟨rfl, -⟩ := List.append_inj' hws rfl
  have hshift (n : Nat) : (us.map (Token.shift n)).map Token.word = us.map Token.word := by
    rw [List.map_map]
    rfl
  rw [drain_of_tokenize hus] at hdrain
  refine ⟨ts ++ us.map _, by rw [tokenize, hdrain]; rfl, ?_⟩
  rw [List.map_append, hshift, hvs, List.append_assoc]

/-! Trees are joined. -/

namespace Program
variable {p q : Program} {us vs : List Word}

/-- The statements of one program and then those of another. -/
def append : Program → Program → Program
  | empty, q => q
  | simple s rest, q => simple s (rest.append q)
  | block b c body rest, q => block b c body (rest.append q)

theorem mentions_append (p q : Program) : (p.append q).mentions = p.mentions ++ q.mentions := by
  induction p with
  | empty => rfl
  | simple s rest ih => simp only [append, mentions, ih, List.append_assoc]
  | block b c body rest _ ih => simp only [append, mentions, ih, List.append_assoc]

theorem code_append (p q : Program) : (p.append q).code = p.code ++ q.code := by
  induction p with
  | empty => exact String.empty_append.symm
  | simple s rest ih => simp only [append, code, ih, String.append_assoc]
  | block b c body rest _ ih => simp only [append, code, ih, String.append_assoc]

theorem newlines_append (m n : Nat) : newlines m ++ newlines n = newlines (m + n) :=
  List.replicate_append_replicate

/-- Empty lines before the second program belong to the last line of the first. -/
theorem Yields.append (hp : p.Yields us) (hq : q.Parses vs) : (p.append q).Parses (us ++ vs) := by
  induction hp with
  | empty => exact hq
  | @simple s rest ws m _ ih =>
    obtain ⟨n, rs, hrs, hy⟩ := ih
    refine ⟨0, _, ?_, .simple (m + n) hy⟩
    simp only [List.append_assoc, List.cons_append, hrs, ← newlines_append]
    rfl
  | @block b c body rest us ws m n hbody _ _ ih =>
    obtain ⟨k, rs, hrs, hy⟩ := ih
    refine ⟨0, _, ?_, .block m (n + k) hbody hy⟩
    simp only [List.append_assoc, List.cons_append, hrs, ← newlines_append]
    rfl

theorem Parses.append (hp : p.Parses us) (hq : q.Parses vs) :
    (p.append q).Parses (us ++ vs) := by
  obtain ⟨m, us, rfl, hy⟩ := hp
  obtain ⟨n, rs, hrs, hy⟩ := hy.append hq
  refine ⟨m + n, rs, ?_, hy⟩
  rw [List.append_assoc, hrs, ← List.append_assoc, newlines_append]

theorem eraseDups_filter (P : String → Bool) (xs : List String) :
    (xs.filter P).eraseDups = xs.eraseDups.filter P := by
  induction xs using List.reverseRec with
  | nil => rfl
  | append_singleton xs x ih =>
    rw [eraseDups_concat, List.filter_append]
    by_cases hx : P x
    · rw [List.filter_cons_of_pos hx, List.filter_nil, eraseDups_concat]
      by_cases hmem : x ∈ xs <;> simp [hmem, hx, ih]
    · rw [List.filter_cons_of_neg hx, List.filter_nil, List.append_nil, ih]
      by_cases hmem : x ∈ xs <;> simp [hmem, hx]

/-- The second program declares what the first has not. -/
theorem targets_append (p q : Program) :
    (p.append q).targets = p.targets ++ q.targets.filter (· ∉ p.targets) := by
  simp only [targets_eq, mentions_append, namesOf_append, List.eraseDups_append, List.removeAll]
  rw [eraseDups_filter]
  simp

end Program

/-- The rules on names are kept by two lists that label no place alike. -/
theorem Scoped.append {ms ns : List Mention} (h : Scoped ms) (h' : Scoped ns)
    (hlabels : (namesOf .label ms).Disjoint (namesOf .label ns)) : Scoped (ms ++ ns) := by
  have hms : Compilation.start.Admits ms :=
    Compilation.admits_start_iff.mpr ⟨h.assigned, h.distinct⟩
  have hns : (Compilation.start.mentionAll ms).Admits ns := by
    refine Compilation.admits_iff.mpr ⟨fun before x after hsplit => ?_, h'.distinct, fun x hx => ?_⟩
    · exact .inr (h'.assigned before x after hsplit)
    · rw [Compilation.labels_mentionAll]
      simpa [Compilation.start] using fun hmem => hlabels hmem hx
  obtain ⟨hassigned, hdistinct⟩ :=
    Compilation.admits_start_iff.mp (Compilation.admits_append.mpr ⟨hms, hns⟩)
  refine ⟨hassigned, hdistinct, ?_⟩
  simp only [namesOf_append]
  refine List.forall_mem_append.mpr ⟨fun x hx => ?_, fun x hx => ?_⟩
  · exact List.mem_append_left _ (h.resolved x hx)
  · exact List.mem_append_right _ (h'.resolved x hx)

/-- The names that stand after `LABEL` in a text. -/
def labelNames (source : String) : List String :=
  match tokenize source with
  | .ok ts => namesOf .label (mentions .operand (ts.map Token.word))
  | .error _ => []

theorem labelNames_eq {source : String} {ts : List Token} {ws : List Word} {prog : Program}
    (hts : tokenize source = .ok ts) (hws : ts.map Token.word = ws ++ [eofWord])
    (hp : prog.Parses ws) : labelNames source = namesOf .label prog.mentions := by
  have heof : mentions .operand (ws ++ [eofWord]) = mentions .operand ws ++ [] :=
    mentions_append_cons (w := eofWord) nofun ws []
  simp only [labelNames, hts, hws, heof, List.append_nil, mentions_of_parses hp]

theorem declarationsIn_source {prog : Program} (hvalid : ∀ w ∈ prog.words, w.Valid) :
    declarationsIn prog.source.header = prog.targets :=
  Compilation.declarationsIn_header fun _ => Program.isName_of_mem_targets hvalid

/-- Programs that label no place alike can be put one after the other, and so can their C texts. -/
theorem compile_append {p q : String} {c d : CSource} (hp : compile p = .ok c)
    (hq : compile q = .ok d) (hlabels : (labelNames p).Disjoint (labelNames q)) :
    ∃ code, c.body = code ++ "return 0;\n\x7d\n" ∧ compile (p ++ "\n" ++ q) = .ok
      ⟨c.header ++ declarations ((declarationsIn d.header).filter (· ∉ declarationsIn c.header)),
        code ++ d.body⟩ := by
  obtain ⟨ts, ws, prog, hts, hws, hparses, hvalid, hscoped, rfl⟩ := exists_parses hp
  obtain ⟨us, vs, prog', hus, hvs, hparses', hvalid', hscoped', rfl⟩ := exists_parses hq
  rw [labelNames_eq hts hws hparses, labelNames_eq hus hvs hparses'] at hlabels
  obtain ⟨rs, hrs, hwords⟩ := words_append hts hws hus hvs
  have hscope : Scoped (prog.append prog').mentions := by
    rw [Program.mentions_append]
    exact hscoped.append hscoped' hlabels
  have haccepts : Accepts (ws ++ vs) (prog.append prog').source :=
    (accepts_iff_of_parses (hparses.append hparses')).mpr ⟨hscope, rfl⟩
  have hsource : (prog.append prog').source =
      ⟨prog.source.header ++ declarations (prog'.targets.filter (· ∉ prog.targets)),
        prog.code ++ prog'.source.body⟩ := by
    have hheader (prog : Program) : prog.source.header =
        "#include <stdio.h>\nint main(void)\x7b\n" ++ declarations prog.targets := rfl
    have hbody (prog : Program) : prog.source.body = prog.code ++ "return 0;\n\x7d\n" := rfl
    rw [CSource.mk.injEq, hheader, hbody, hheader, hbody, Program.targets_append,
      declarations_append, Program.code_append, String.append_assoc, String.append_assoc]
    exact ⟨rfl, rfl⟩
  refine ⟨prog.code, rfl, ?_⟩
  rw [declarationsIn_source hvalid, declarationsIn_source hvalid', ← hsource]
  exact compile_eq_ok_iff.mpr ⟨rs, ws ++ vs, hrs, hwords, haccepts⟩

/-- A variable of both programs, a comment between them and a loop in each. -/
theorem compile_append_loops : ∃ c d code,
    compile "LABEL a\nLET x = 1\nGOTO a # again" = .ok c ∧
      compile "\nLET y = 2\nLABEL b\nLET x = y\nGOTO b" = .ok d ∧
        c.body = code ++ "return 0;\n\x7d\n" ∧
          compile ("LABEL a\nLET x = 1\nGOTO a # again" ++ "\n" ++
              "\nLET y = 2\nLABEL b\nLET x = y\nGOTO b") = .ok
            ⟨c.header ++ declarations ((declarationsIn d.header).filter
              (· ∉ declarationsIn c.header)), code ++ d.body⟩ := by
  have hp : compile "LABEL a\nLET x = 1\nGOTO a # again" = .ok
      ⟨"#include <stdio.h>\nint main(void)\x7b\nfloat x;\n",
        "a:;\nx = 1;\ngoto a;\nreturn 0;\n\x7d\n"⟩ := by cbv
  have hq : compile "\nLET y = 2\nLABEL b\nLET x = y\nGOTO b" = .ok
      ⟨"#include <stdio.h>\nint main(void)\x7b\nfloat y;\nfloat x;\n",
        "y = 2;\nb:;\nx = y;\ngoto b;\nreturn 0;\n\x7d\n"⟩ := by cbv
  have hnames : labelNames "LABEL a\nLET x = 1\nGOTO a # again" = ["a"] := by cbv
  have hnames' : labelNames "\nLET y = 2\nLABEL b\nLET x = y\nGOTO b" = ["b"] := by cbv
  have hlabels : (labelNames "LABEL a\nLET x = 1\nGOTO a # again").Disjoint
      (labelNames "\nLET y = 2\nLABEL b\nLET x = y\nGOTO b") := by
    simp [hnames, hnames']
  obtain ⟨code, hcode, hwhole⟩ := compile_append hp hq hlabels
  exact ⟨_, _, code, hp, hq, hcode, hwhole⟩

end TeenyToC
