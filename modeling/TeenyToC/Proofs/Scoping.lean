import Mathlib.Data.List.Nodup
import TeenyToC.Proofs.Tables

/-! The names in C text and in the tables. In every state that a run passes through, whether it is
accepted or not, the tables list what can be read in the two texts (`consistent_of_visited`). So in
the text of an accepted program each variable that is used is declared once, in front of the body,
and each jump has its one label. -/

namespace TeenyToC

namespace Compilation

/-- The tables say what the two texts hold. -/
structure Consistent (s : Compilation) : Prop where
  header : s.code.header =
    "#include <stdio.h>\nint main(void)\x7b\n" ++ declarations s.declared.reverse
  distinct : s.declared.Nodup
  uses : ∀ x ∈ variablesIn s.code.body, x ∈ s.declared
  labels : labelsIn s.code.body = s.labels.reverse
  once : s.labels.Nodup
  jumps : jumpsIn s.code.body = s.jumps.reverse.map Token.text

variable {s : Compilation}

theorem Sound.consistent (h : s.Sound) : s.Consistent := by
  obtain ⟨done, last, ⟨hheads, hwritten, hrecords⟩, hlast⟩ := h
  obtain ⟨hunnamed, hvariables⟩ := hlast.unnamed
  have hlines := hwritten.linesOf_eq
  have hbody := hrecords.unnamed hunnamed hvariables
  rw [← hlines] at hbody
  exact {
    header := hheads.eq
    distinct := hheads.distinct
    uses := hbody.uses
    labels := hbody.labelLines
    once := hbody.once
    jumps := hbody.jumpLines }

/-! The declarations, read in the text. -/

theorem written_declarations {xs : List String} (h : ∀ x ∈ xs, isName x.toList) :
    ∃ lines, Written (declarations xs) lines [] ∧ lines.filterMap declarationOf? = xs := by
  induction xs with
  | nil => exact ⟨[], ⟨rfl, by simp, by simp⟩, rfl⟩
  | cons x xs ih =>
    obtain ⟨hx, hxs⟩ := List.forall_mem_cons.mp h
    obtain ⟨lines, hlines, hnames⟩ := ih hxs
    have hcode : declarations (x :: xs) = "float " ++ x ++ ";\n" ++ declarations xs := by
      simp [declarations]
    have hfirst : Written ("float " ++ x ++ ";\n")
        ["float ".toList ++ (x.toList ++ ";".toList)] [] :=
      ⟨by simp, by simpa using newline_not_mem_of_isName hx, by simp⟩
    refine ⟨["float ".toList ++ (x.toList ++ ";".toList)] ++ lines, hcode ▸ hfirst.append hlines, ?_⟩
    rw [List.filterMap_append, hnames, List.filterMap_cons, declarationOf?_float hx]
    rfl

theorem written_header {xs : List String} (h : ∀ x ∈ xs, isName x.toList) :
    ∃ lines, Written ("#include <stdio.h>\nint main(void)\x7b\n" ++ declarations xs) lines [] ∧
      lines.filterMap declarationOf? = xs := by
  obtain ⟨lines, hlines, hnames⟩ := written_declarations h
  have htop : Written "#include <stdio.h>\nint main(void)\x7b\n"
      ["#include <stdio.h>".toList, "int main(void)\x7b".toList] [] :=
    ⟨by rfl, by decide, by simp⟩
  refine ⟨_, htop.append hlines, ?_⟩
  rw [List.filterMap_append, hnames]
  rfl

theorem declarationsIn_header {xs : List String} (h : ∀ x ∈ xs, isName x.toList) :
    declarationsIn ("#include <stdio.h>\nint main(void)\x7b\n" ++ declarations xs) = xs := by
  obtain ⟨lines, hwritten, hlines⟩ := written_header h
  rw [declarationsIn, hwritten.linesOf_eq, List.filterMap_append, hlines]
  exact List.append_nil xs

theorem Sound.declarationsIn (h : s.Sound) :
    declarationsIn s.code.header = s.declared.reverse ∧
      declarationsIn s.code.text = s.declared.reverse := by
  obtain ⟨done, last, ⟨hheads, hwritten, hrecords⟩, hlast⟩ := h
  have hnames : ∀ x ∈ s.declared.reverse, isName x.toList := fun x hx =>
    hheads.names x (List.mem_reverse.mp hx)
  obtain ⟨lines, hheader, hlines⟩ := written_header hnames
  rw [← hheads.eq] at hheader
  obtain ⟨hunnamed, hvariables⟩ := hlast.unnamed
  have hbody := (hrecords.unnamed hunnamed hvariables).declarationLines
  constructor
  · rw [hheads.eq, declarationsIn_header hnames]
  · rw [TeenyToC.declarationsIn, CSource.text, (hheader.append hwritten).linesOf_eq,
      List.append_assoc, List.filterMap_append, hlines, hbody, List.append_nil]

end Compilation

namespace Window

/-- The states that a run passes through, before and after each step, also where the next token
cannot be read. -/
inductive Visits : Compilation → Window → Compilation → Prop where
  | here (s : Compilation) (w : Window) : Visits s w s
  | settled {s m : Compilation} {w : Window} : s.settle = .ok m → Visits s w m
  | stepped {s m : Compilation} {w : Window} : w.current.kind ≠ .eof → s.step w.current = .ok m →
      Visits s w m
  | later {s m r : Compilation} {w : Window} {t : Token} {rest : Cursor} : w.current.kind ≠ .eof →
      s.step w.current = .ok m → w.cursor.next = (.ok t, rest) → Visits m ⟨w.ahead, t, rest⟩ r →
        Visits s w r
  | finished {s m : Compilation} {w : Window} : w.current.kind = .eof →
      s.finish w.current = .ok m → Visits s w m

variable {s r : Compilation} {w : Window} {cur : Cursor}

theorem Visits.sound (h : Visits s w r) (hs : s.Sound)
    (hc : w.current.kind.admits w.current.text.toList)
    (ha : w.ahead.kind.admits w.ahead.text.toList) : r.Sound := by
  induction h with
  | here => exact hs
  | settled hsettle => exact Compilation.sound_settle hs hsettle
  | stepped _ hstep => exact Compilation.sound_step hs hc hstep
  | later _ hstep hnext _ ih =>
    exact ih (Compilation.sound_step hs hc hstep) ha (Cursor.next_admits hnext)
  | finished heof hfinish => exact Compilation.sound_finish hs heof hfinish

/-- An accepted run ends in a state that it visits, where all jumps have labels. -/
theorem visits_of_run (h : (w.run s).1 = .ok r) :
    Visits s w r ∧ ∀ jump ∈ r.jumps, jump.text ∈ r.labels := by
  fun_induction run s w with
  | case1 => cases h
  | case2 s w hc m hfinish =>
    cases h
    obtain ⟨-, -, hjumps, hm⟩ := (Compilation.finish_eq_ok_iff hc).mp hfinish
    exact ⟨.finished hc hfinish, by rw [hm]; exact hjumps⟩
  | case3 => cases h
  | case4 => cases h
  | case5 s w hc _ m hstep t rest hnext _ result events hrun =>
    rename_i ih
    rw [hrun] at ih
    obtain ⟨hvisits, hjumps⟩ := ih h
    exact ⟨.later hc hstep hnext hvisits, hjumps⟩

theorem admits_of_prime (h : (prime cur).1 = .ok w) :
    w.current.kind.admits w.current.text.toList ∧ w.ahead.kind.admits w.ahead.text.toList := by
  unfold prime at h
  split at h
  · cases h
  · next hnext =>
    split at h
    · cases h
    · next hnext' =>
      cases h
      exact ⟨Cursor.next_admits hnext, Cursor.next_admits hnext'⟩

end Window

/-- The states of the compilation of a program. -/
def Visited (source : String) (s : Compilation) : Prop :=
  ∃ w, (Window.prime (.start source)).1 = .ok w ∧ w.Visits .start s

section
variable {source : String} {s : Compilation} {c : CSource}

theorem Visited.sound (h : Visited source s) : s.Sound := by
  obtain ⟨w, hprime, hvisits⟩ := h
  obtain ⟨hc, ha⟩ := Window.admits_of_prime hprime
  exact hvisits.sound Compilation.sound_start hc ha

theorem visited_of_compile (h : compile source = .ok c) :
    ∃ s, Visited source s ∧ s.code = c ∧ ∀ jump ∈ s.jumps, jump.text ∈ s.labels := by
  obtain ⟨w, events, s, hprime, hrun, hcode, -⟩ := exists_run_of_compile h
  obtain ⟨hvisits, hjumps⟩ := Window.visits_of_run hrun
  exact ⟨s, ⟨w, by rw [hprime], hvisits⟩, hcode, hjumps⟩

end

/-- The tables list what the texts hold, in every state of every run. In what is accepted each
variable is declared once, before the body, and each jump has one label. -/
theorem consistent_of_visited (source : String) :
    (∀ s, Visited source s → s.Consistent) ∧
    ∀ c, compile source = .ok c → (∃ s, Visited source s ∧ s.code = c) ∧
      (∀ x ∈ variablesIn c.body,
        (declarationsIn c.text).count x = 1 ∧ x ∈ declarationsIn c.header) ∧
      ∀ x ∈ jumpsIn c.body, (labelsIn c.body).count x = 1 := by
  refine ⟨fun s h => h.sound.consistent, fun c h => ?_⟩
  obtain ⟨s, hvisited, rfl, hresolved⟩ := visited_of_compile h
  have hs := hvisited.sound.consistent
  obtain ⟨hheader, htext⟩ := hvisited.sound.declarationsIn
  refine ⟨⟨s, hvisited, rfl⟩, fun x hx => ?_, fun x hx => ?_⟩
  · have hmem : x ∈ s.declared.reverse := List.mem_reverse.mpr (hs.uses x hx)
    rw [hheader, htext]
    exact ⟨List.count_eq_one_of_mem (List.nodup_reverse.mpr hs.distinct) hmem, hmem⟩
  · rw [hs.jumps] at hx
    obtain ⟨jump, hjump, rfl⟩ := List.mem_map.mp hx
    have hmem := hresolved jump (List.mem_reverse.mp hjump)
    rw [hs.labels]
    exact List.count_eq_one_of_mem (List.nodup_reverse.mpr hs.once) (List.mem_reverse.mpr hmem)

/-- A variable is declared in front, though its line is refused later; and a jump out of a block to
a label behind it. -/
theorem consistent_of_visited_target :
    (∃ s, Visited "LET x = y" s ∧
      s.code = ⟨"#include <stdio.h>\nint main(void)\x7b\nfloat x;\n", "x = "⟩ ∧
        compile "LET x = y" = .error (.parse ⟨1, .undeclaredVariable "y"⟩) ∧ s.Consistent) ∧
    ∃ c, compile "LET a = 1\nWHILE a > 0 REPEAT\nGOTO out\nENDWHILE\nLABEL out" = .ok c ∧
      (declarationsIn c.text).count "a" = 1 ∧ (labelsIn c.body).count "out" = 1 := by
  constructor
  · let named := (Compilation.start.declare "x").write "x = "
    have hprime : (Window.prime (.start "LET x = y")).1 =
        .ok ⟨⟨.keyword .assign, "LET", 1⟩, ⟨.ident, "x", 1⟩, ⟨" = y\n".toList, 1⟩⟩ := by cbv
    have hnext : Cursor.next ⟨" = y\n".toList, 1⟩ =
        (.ok ⟨.equals, "=", 1⟩, ⟨" y\n".toList, 1⟩) := by cbv
    have hlet : Compilation.start.step ⟨.keyword .assign, "LET", 1⟩ =
        .ok (Compilation.start.await .letName) := by rfl
    have hname : (Compilation.start.await .letName).step ⟨.ident, "x", 1⟩ =
        .ok (named.await .equals) := by rfl
    have h : Visited "LET x = y" (named.await .equals) :=
      ⟨_, hprime, .later (by decide) hlet hnext (.stepped (by decide) hname)⟩
    exact ⟨_, h, by cbv, by cbv, (consistent_of_visited _).1 _ h⟩
  · obtain ⟨body, hbody⟩ : ∃ body, body =
      "a = 1;\nwhile(a > 0)\x7b\ngoto out;\n\x7d\nout:;\nreturn 0;\n\x7d\n" := ⟨_, rfl⟩
    have h : compile "LET a = 1\nWHILE a > 0 REPEAT\nGOTO out\nENDWHILE\nLABEL out" =
        .ok ⟨"#include <stdio.h>\nint main(void)\x7b\nfloat a;\n", body⟩ := by
      rw [hbody]
      cbv
    have hvariables : variablesIn body = ["a", "a"] := by
      rw [hbody]
      cbv
    have hjumps : jumpsIn body = ["out"] := by
      rw [hbody]
      cbv
    obtain ⟨-, hdeclared, hlabelled⟩ := (consistent_of_visited _).2 _ h
    refine ⟨_, h, (hdeclared "a" ?_).1, hlabelled "out" ?_⟩
    · rw [hvariables]
      exact List.mem_cons_self
    · rw [hjumps]
      exact List.mem_cons_self

end TeenyToC
