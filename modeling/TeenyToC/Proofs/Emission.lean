import Mathlib
import TeenyToC.Proofs.Parsing

/-! The text that is written for a program. A program that has a tree is accepted exactly if its
names keep the rules, and its C text is then the one its tree stands for
(`accepts_iff_of_parses`). Declarations are written where a target is first found, whatever block it
stands in, so the header lists the targets of the tree in that order. -/

namespace TeenyToC

def declarations (xs : List String) : String :=
  String.join (xs.map fun x => "float " ++ x ++ ";\n")

theorem declarations_append (xs ys : List String) :
    declarations (xs ++ ys) = declarations xs ++ declarations ys := by
  simp [declarations]

/-- A name is kept if it is not among the names before it. -/
theorem eraseDups_concat (xs : List String) (x : String) :
    (xs ++ [x]).eraseDups = if x ∈ xs then xs.eraseDups else xs.eraseDups ++ [x] := by
  rw [List.eraseDups_append, List.removeAll]
  by_cases h : x ∈ xs
  · simp [h]
  · simp [h, List.eraseDups_cons]

namespace Compilation
variable {s : Compilation} {ms : List Mention}

theorem body_mentionAll (ms : List Mention) : (s.mentionAll ms).code.body = s.code.body := by
  induction ms generalizing s with
  | nil => rfl
  | cons m ms ih =>
    apply ih.trans
    obtain ⟨role, name⟩ := m
    cases role with
    | target =>
      by_cases h : name ∈ s.declared <;>
        simp [mention, declare, h, CSource.writeHeaderLine, CSource.writeHeader]
    | _ => rfl

theorem header_declare (name : String) : (s.declare name).code.header =
    if name ∈ s.declared then s.code.header else s.code.header ++ declarations [name] := by
  by_cases h : name ∈ s.declared
  · simp [declare, h]
  · simp [declare, h, CSource.writeHeaderLine, CSource.writeHeader, declarations,
      String.append_assoc]

/-- The header after some mentions, in a state where the targets `before` have been declared. -/
theorem header_mentionAll {before : List String} {top : String}
    (hbefore : ∀ x, x ∈ s.declared ↔ x ∈ before)
    (hheader : s.code.header = top ++ declarations before.eraseDups) :
    (s.mentionAll ms).code.header =
      top ++ declarations (before ++ namesOf .target ms).eraseDups := by
  induction ms generalizing s before with
  | nil => simpa [mentionAll] using hheader
  | cons m ms ih =>
    obtain ⟨role, name⟩ := m
    cases role with
    | target =>
      have hnames : before ++ namesOf .target (⟨.target, name⟩ :: ms) =
          before ++ [name] ++ namesOf .target ms := by simp
      rw [hnames]
      -- Whether or not the name is new, it now belongs to the targets before the rest.
      apply ih (s := s.declare name)
      · simp [declared_declare, hbefore, or_comm]
      · rw [header_declare, eraseDups_concat, hheader]
        by_cases h : name ∈ before
        · simp [hbefore, h]
        · simp [hbefore, h, declarations_append, String.append_assoc]
    | _ => exact ih (s := s.mention _) hbefore hheader

theorem header_mentionAll_start : (start.mentionAll ms).code.header =
    "#include <stdio.h>\nint main(void)\x7b\n" ++ declarations (namesOf .target ms).eraseDups := by
  have hheader : start.code.header =
      "#include <stdio.h>\nint main(void)\x7b\n" ++ declarations ([] : List String).eraseDups := by
    simp [start, CSource.empty, CSource.writeHeaderLine, CSource.writeHeader, declarations]
  have hdeclared : ∀ x, x ∈ start.declared ↔ x ∈ ([] : List String) := by simp [start]
  exact header_mentionAll hdeclared hheader

/-- Each target is declared once, and the last one that is new stands in front. -/
theorem declared_mentionAll_start (ms : List Mention) :
    (start.mentionAll ms).declared = (namesOf .target ms).eraseDups.reverse := by
  induction ms using List.reverseRecOn with
  | nil => rfl
  | append_singleton ms m ih =>
    obtain ⟨role, name⟩ := m
    rw [mentionAll_append, namesOf_append]
    cases role with
    | target =>
      change ((start.mentionAll ms).declare name).declared =
        (namesOf .target ms ++ [name]).eraseDups.reverse
      rw [declared_declare, ih, eraseDups_concat]
      by_cases h : name ∈ namesOf .target ms <;> simp [h]
    | _ => exact ih.trans (by simp)

theorem jumps_resolved_iff : (∀ jump ∈ (start.mentionAll ms).jumps,
    jump.text ∈ (start.mentionAll ms).labels) ↔ ∀ x ∈ namesOf .jump ms, x ∈ namesOf .label ms := by
  rw [jumps_mentionAll, labels_mentionAll]
  simp [start]

end Compilation

/-- The state at the end of a program stands for the C text of its tree. -/
theorem Program.source_eq (prog : Program) :
    ((((Compilation.start.mentionAll prog.mentions).write prog.code).writeLine
      "return 0;").writeLine "\x7d").code = prog.source := by
  have hbody : (Compilation.start.mentionAll prog.mentions).code.body = "" :=
    Compilation.body_mentionAll prog.mentions
  have hheader : (Compilation.start.mentionAll prog.mentions).code.header = prog.source.header := by
    rw [Compilation.header_mentionAll_start, ← prog.targets_eq]
    rfl
  have hend : prog.source.body = prog.code ++ "return 0;\n\x7d\n" := rfl
  simp only [Compilation.writeLine_eq, Compilation.write_write, String.reduceAppend]
  simp only [Compilation.write, CSource.write, hbody, hheader, String.empty_append,
    String.append_assoc, String.reduceAppend]
  rw [← hend]

/-- The words of a tree are read exactly if its names are allowed, and leave its text and names. -/
theorem Compilation.read_parses {prog : Program} {ws : List Word} {s : Compilation}
    (hp : prog.Parses ws) : start.read ws = .ok s ↔
      start.Admits prog.mentions ∧ s = (start.mentionAll prog.mentions).write prog.code := by
  obtain ⟨n, us, rfl, hy⟩ := hp
  rw [read_newlines rfl, read_yields hy rfl]

theorem accepts_iff_of_parses {prog : Program} {ws : List Word} {c : CSource}
    (hp : prog.Parses ws) : Accepts ws c ↔ Scoped prog.mentions ∧ c = prog.source := by
  let final := (Compilation.start.mentionAll prog.mentions).write prog.code
  have hread (s : Compilation) : Compilation.start.read ws = .ok s ↔
      Compilation.start.Admits prog.mentions ∧ s = final := Compilation.read_parses hp
  have hphase : final.phase = .statement := Compilation.phase_mentionAll prog.mentions
  have hblocks : final.blocks = [] := Compilation.blocks_mentionAll prog.mentions
  have hjumps : (∀ jump ∈ final.jumps, jump.text ∈ final.labels) ↔
      ∀ x ∈ namesOf .jump prog.mentions, x ∈ namesOf .label prog.mentions :=
    Compilation.jumps_resolved_iff
  have hfinish (s : Compilation) : final.finish (.ofWord eofWord) = .ok s ↔ _ :=
    Compilation.finish_eq_ok_iff rfl
  simp only [Accepts, hread, Compilation.admits_start_iff]
  constructor
  · intro h
    obtain ⟨_, s', ⟨⟨hassigned, hdistinct⟩, rfl⟩, hs', rfl⟩ := h
    obtain ⟨-, -, hresolved, rfl⟩ := (hfinish s').mp hs'
    exact ⟨⟨hassigned, hdistinct, hjumps.mp hresolved⟩, prog.source_eq⟩
  · intro h
    obtain ⟨⟨hassigned, hdistinct, hresolved⟩, rfl⟩ := h
    exact ⟨final, _, ⟨⟨hassigned, hdistinct⟩, rfl⟩,
      (hfinish _).mpr ⟨hphase, hblocks, hjumps.mpr hresolved, rfl⟩, prog.source_eq⟩

theorem finishes_of_accepts {ws : List Word} {c : CSource} (h : Accepts ws c) :
    Compilation.start.Finishes ws := by
  obtain ⟨s, s', hread, hfinish, -⟩ := h
  obtain ⟨hphase, hblocks, -, -⟩ := (Compilation.finish_eq_ok_iff rfl).mp hfinish
  exact ⟨s, hread, hphase, hblocks⟩

/-- Whatever is compiled has a tree, and its text is what any tree of it stands for. -/
theorem compile_text {source : String} {c : CSource} (h : compile source = .ok c) :
    ∃ ts ws, tokenize source = .ok ts ∧ ts.map Token.word = ws ++ [eofWord] ∧
      (∃ prog : Program, prog.Parses ws) ∧ ∀ prog : Program, prog.Parses ws →
        c.text = "#include <stdio.h>\n" ++ "int main(void)\x7b\n" ++
          String.join (prog.targets.map fun x => "float " ++ x ++ ";\n") ++ prog.code ++
            "return 0;\n\x7d\n" := by
  obtain ⟨ts, ws, htokens, hws, haccepts⟩ := compile_eq_ok_iff.mp h
  have hvalid := valid_of_tokenize htokens hws
  have htree := Compilation.parses_of_finishes (finishes_of_accepts haccepts) hvalid
  refine ⟨ts, ws, htokens, hws, htree, fun prog hp => ?_⟩
  obtain ⟨-, rfl⟩ := (accepts_iff_of_parses hp).mp haccepts
  have hheader : prog.source.header = "#include <stdio.h>\nint main(void)\x7b\n" ++
      String.join (prog.targets.map fun x => "float " ++ x ++ ";\n") := rfl
  have hbody : prog.source.body = prog.code ++ "return 0;\n\x7d\n" := rfl
  rw [CSource.text, hheader, hbody]
  simp only [String.append_assoc, String.reduceAppend]

/-- A variable that is given a value in a block is declared in front of it. -/
theorem compile_text_block : ∃ c, compile "IF 1 > 0 THEN\nLET x = -2\nENDIF" = .ok c ∧
    ∃ ts ws, tokenize "IF 1 > 0 THEN\nLET x = -2\nENDIF" = .ok ts ∧
      ts.map Token.word = ws ++ [eofWord] ∧ (∃ prog : Program, prog.Parses ws) ∧
        ∀ prog : Program, prog.Parses ws →
          c.text = "#include <stdio.h>\n" ++ "int main(void)\x7b\n" ++
            String.join (prog.targets.map fun x => "float " ++ x ++ ";\n") ++ prog.code ++
              "return 0;\n\x7d\n" := by
  have h : compile "IF 1 > 0 THEN\nLET x = -2\nENDIF" = .ok
      ⟨"#include <stdio.h>\nint main(void)\x7b\nfloat x;\n",
        "if(1 > 0)\x7b\nx = -2;\n\x7d\nreturn 0;\n\x7d\n"⟩ := by cbv
  exact ⟨_, h, compile_text h⟩

end TeenyToC
