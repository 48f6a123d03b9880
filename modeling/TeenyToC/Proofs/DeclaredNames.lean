import TeenyToC.Proofs.Sequencing

/-! The names that C text declares. They are the names of the program, in its own spelling, and no
name is kept out: words of C are lower case, and the keywords of the language are not. So C accepts
its declarations exactly if the program has no name that C has taken (`namesAllowed_iff`). -/

namespace TeenyToC

def cKeywords : List String :=
  ["auto", "break", "case", "char", "const", "continue", "default", "do", "double", "else", "enum",
    "extern", "float", "for", "goto", "if", "inline", "int", "long", "register", "restrict",
    "return", "short", "signed", "sizeof", "static", "struct", "switch", "typedef", "union",
    "unsigned", "void", "volatile", "while", "_Alignas", "_Alignof", "_Atomic", "_Bool",
    "_Complex", "_Generic", "_Imaginary", "_Noreturn", "_Static_assert", "_Thread_local"]

/-- What the body calls. A variable of the same name would hide it. -/
def calledNames : List String := ["printf", "scanf"]

/-- Each name that the text declares can be declared in C, where labels are kept apart. -/
structure NamesAllowed (c : CSource) : Prop where
  declared : ∀ x ∈ declarationsIn c.text, x ∉ cKeywords ∧ x ∉ calledNames
  labels : ∀ x ∈ labelsIn c.body, x ∉ cKeywords

/-- The names in the words of a text that have some role. -/
def namesIn (r : Role) (ts : List Token) : List String :=
  namesOf r (mentions .operand (ts.map Token.word))

section
variable {source : String} {c : CSource} {ts : List Token}

/-- At the end of an accepted program the table of labels lists those of the words. -/
theorem labelsIn_of_accepts {ws : List Word} {prog : Program} (hp : prog.Parses ws)
    (hvalid : ∀ w ∈ ws, w.Valid) (h : Accepts ws c) :
    labelsIn c.body = namesOf .label prog.mentions := by
  obtain ⟨m, r, hread, hfinish, rfl⟩ := h
  have hsound := Compilation.sound_read Compilation.sound_start hvalid hread
  have hlabels := (Compilation.sound_finish hsound rfl hfinish).consistent.labels
  obtain ⟨n, us, rfl, hy⟩ := hp
  rw [Compilation.read_newlines rfl] at hread
  obtain ⟨-, rfl⟩ := (Compilation.read_yields hy rfl).mp hread
  obtain ⟨-, -, -, rfl⟩ := (Compilation.finish_eq_ok_iff rfl).mp hfinish
  have hnames : (Compilation.start.mentionAll prog.mentions).labels =
      (namesOf .label prog.mentions).reverse := by
    rw [Compilation.labels_mentionAll]
    exact List.append_nil _
  rw [hlabels]
  change (Compilation.start.mentionAll prog.mentions).labels.reverse = _
  rw [hnames, List.reverse_reverse]

/-- The declarations and the labels of the C text are those of the program. -/
theorem declared_names (h : compile source = .ok c) (hts : tokenize source = .ok ts) :
    declarationsIn c.text = (namesIn .target ts).eraseDups ∧
      labelsIn c.body = namesIn .label ts := by
  obtain ⟨s, hvisited, rfl, -⟩ := visited_of_compile h
  obtain ⟨hheader, htext⟩ := hvisited.sound.declarationsIn
  obtain ⟨ts', ws, hts', hws, haccepts⟩ := compile_eq_ok_iff.mp h
  obtain rfl : ts = ts' := Except.ok.inj (hts.symm.trans hts')
  have hvalid := valid_of_tokenize hts hws
  obtain ⟨prog, hp⟩ := Compilation.parses_of_finishes (finishes_of_accepts haccepts) hvalid
  obtain ⟨-, hcode⟩ := (accepts_iff_of_parses hp).mp haccepts
  have hnames (r : Role) : namesIn r ts = namesOf r prog.mentions := by
    have heof : mentions .operand (ws ++ [eofWord]) = mentions .operand ws ++ [] :=
      mentions_append_cons (w := eofWord) nofun ws []
    rw [namesIn, hws, heof, List.append_nil, mentions_of_parses hp]
  have hwords : ∀ w ∈ prog.words, w.Valid := fun w hw =>
    hvalid w (words_subset_of_parses hp hw)
  constructor
  · rw [htext, ← hheader, hcode, declarationsIn_source hwords, Program.targets_eq, hnames]
  · rw [labelsIn_of_accepts hp hvalid haccepts, hnames]

/-- No name is refused or changed, so what C takes of the declarations is what it takes of the
names of the program. -/
theorem namesAllowed_iff (h : compile source = .ok c) (hts : tokenize source = .ok ts) :
    declarationsIn c.text = (namesIn .target ts).eraseDups ∧ labelsIn c.body = namesIn .label ts ∧
      (NamesAllowed c ↔ (∀ x ∈ namesIn .target ts, x ∉ cKeywords ∧ x ∉ calledNames) ∧
        ∀ x ∈ namesIn .label ts, x ∉ cKeywords) := by
  obtain ⟨hdeclared, hlabels⟩ := declared_names h hts
  refine ⟨hdeclared, hlabels, ?_⟩
  constructor
  · intro hallowed
    refine ⟨fun x hx => hallowed.declared x ?_, fun x hx => hallowed.labels x ?_⟩
    · rw [hdeclared]
      exact List.mem_eraseDups.mpr hx
    · rw [hlabels]
      exact hx
  · rintro ⟨htargets, hnames⟩
    refine ⟨fun x hx => htargets x ?_, fun x hx => hnames x ?_⟩
    · rw [hdeclared] at hx
      exact List.mem_eraseDups.mp hx
    · rwa [hlabels] at hx

end

/-- A variable and a label of the same name, which C would only know in lower case. -/
theorem namesAllowed_iff_capital : ∃ c ts, compile "LABEL Int\nINPUT Int\nGOTO Int" = .ok c ∧
    tokenize "LABEL Int\nINPUT Int\nGOTO Int" = .ok ts ∧ NamesAllowed c := by
  have h : compile "LABEL Int\nINPUT Int\nGOTO Int" = .ok
      ⟨"#include <stdio.h>\nint main(void)\x7b\nfloat Int;\n",
        "Int:;\nif(1 != scanf(\"%f\", &Int)) \x7b\nInt = 0;\nscanf(\"%*s\");\n\x7d\ngoto Int;\n" ++
          "return 0;\n\x7d\n"⟩ := by cbv
  have hts : tokenize "LABEL Int\nINPUT Int\nGOTO Int" = .ok [⟨.keyword .label, "LABEL", 1⟩,
      ⟨.ident, "Int", 1⟩, ⟨.newline, "\n", 1⟩, ⟨.keyword .input, "INPUT", 2⟩, ⟨.ident, "Int", 2⟩,
      ⟨.newline, "\n", 2⟩, ⟨.keyword .goto, "GOTO", 3⟩, ⟨.ident, "Int", 3⟩, ⟨.newline, "\n", 3⟩,
      ⟨.eof, "", 4⟩] := by cbv
  obtain ⟨-, -, hiff⟩ := namesAllowed_iff h hts
  exact ⟨_, _, h, hts, hiff.mpr ⟨by decide, by decide⟩⟩

/-- A variable may be called `int`. -/
theorem not_namesAllowed_int : ¬∀ source c, compile source = .ok c → NamesAllowed c := by
  intro hall
  let c : CSource :=
    ⟨"#include <stdio.h>\nint main(void)\x7b\nfloat int;\n", "int = 1;\nreturn 0;\n\x7d\n"⟩
  have h : compile "LET int = 1" = .ok c := by cbv
  have hdeclared : declarationsIn c.text = ["int"] := by cbv
  obtain ⟨hkeyword, -⟩ := (hall _ _ h).declared "int" (by rw [hdeclared]; exact List.mem_cons_self)
  exact hkeyword (by decide)

end TeenyToC
