import TeenyToC.Proofs.LexicalFaults

/-! The calls of the scanner, one after the other. Wherever they lead, the cursor stands behind what
has been read, on the line that its newlines tell (`Cursor.Stands.after`). So each token and each
fault is on a line of the text, and only the end of the text is on a line behind it
(`Cursor.Stands.lines_of_drain`). -/

namespace TeenyToC

/-- The line is one of the text. -/
def InText (source : String) (line : Nat) : Prop :=
  1 ≤ line ∧ line ≤ source.toList.count '\n' + 1

namespace Cursor

/-- Where the scanner stands after so many calls. -/
def after (cur : Cursor) (n : Nat) : Cursor := (fun cur => cur.next.2)^[n] cur

/-- The result of one of the calls; the first has the number zero. -/
def call (cur : Cursor) (n : Nat) : Except LexError Token := (cur.after n).next.1

theorem after_succ (cur : Cursor) (n : Nat) : cur.after (n + 1) = (cur.after n).next.2 :=
  Function.iterate_succ_apply' _ n cur

theorem after_add (cur : Cursor) (m n : Nat) : cur.after (m + n) = (cur.after m).after n := by
  rw [Nat.add_comm]
  exact Function.iterate_add_apply _ n m cur

theorem call_add (cur : Cursor) (m n : Nat) : cur.call (m + n) = (cur.after m).call n := by
  rw [call, call, after_add]

theorem steps_eq_map_call (cur : Cursor) (n : Nat) : cur.steps n = (List.range n).map cur.call := by
  induction n generalizing cur with
  | zero => rfl
  | succ n ih =>
    rw [steps, ih, List.range_succ_eq_map, List.map_cons, List.map_map]
    rfl

theorem length_steps (cur : Cursor) (n : Nat) : (cur.steps n).length = n := by
  rw [steps_eq_map_call, List.length_map, List.length_range]

theorem steps_add (cur : Cursor) (m n : Nat) :
    cur.steps (m + n) = cur.steps m ++ (cur.after m).steps n := by
  simp only [steps_eq_map_call, List.range_add, List.map_append, List.map_map, Function.comp_def,
    call_add]

theorem mem_steps {cur : Cursor} {n : Nat} {r : Except LexError Token} :
    r ∈ cur.steps n ↔ ∃ i < n, cur.call i = r := by
  simp [steps_eq_map_call]

/-- A cursor that a call leaves where it is gets the same result ever after. -/
theorem call_of_next_self {cur : Cursor} {r : Except LexError Token} (h : cur.next = (r, cur))
    (n : Nat) : cur.call n = r := by
  have hstays : cur.after n = cur := Function.iterate_fixed (congrArg Prod.snd h) n
  rw [call, hstays, h]

/-- The cursor stands behind these characters of a text, and counts its lines by them. -/
structure Stands (source : String) (read : List Char) (cur : Cursor) : Prop where
  split : source.toList ++ ['\n'] = read ++ cur.rest
  line : cur.line = 1 + read.count '\n'

section Positions
variable {source : String} {read : List Char} {cur rest : Cursor} {t : Token} {e : LexError}

theorem stands_start (source : String) : Stands source [] (start source) := ⟨rfl, rfl⟩

theorem Stands.ended (h : Stands source read cur) : Ended cur.rest := by
  have hended := ended_concat source.toList
  rw [h.split] at hended
  exact hended.of_append

/-- Characters without a newline do not lead to another line. -/
theorem Stands.same_line {more : List Char} (h : Stands source read cur)
    (hsplit : cur.rest = more ++ rest.rest) (hmore : '\n' ∉ more) (hline : rest.line = cur.line) :
    Stands source (read ++ more) rest := by
  constructor
  · rw [h.split, hsplit, List.append_assoc]
  · rw [hline, h.line, List.count_append, List.count_eq_zero_of_not_mem hmore, Nat.add_zero]

theorem line_of_next_error (h : cur.next = (.error e, rest)) :
    rest.line = cur.line ∧ e.line = cur.line := by
  unfold next at h
  split at h
  · cases h
  · cases h
    exact ⟨rfl, rfl⟩

/-- After a fault the cursor stands behind the characters before the wrong one. -/
theorem Stands.next_error (h : Stands source read cur) (hnext : cur.next = (.error e, rest)) :
    ∃ tr lead, Stands source (read ++ (tr ++ lead)) rest ∧
      IsFault (lead ++ rest.rest) e.fault lead ∧ e.line = rest.line := by
  obtain ⟨tr, r, lead, hsplit, htr, hfault, rfl, -⟩ := isFault_of_next h.ended hnext
  obtain ⟨hline, he⟩ := line_of_next_error hnext
  have hnewline : '\n' ∉ tr ++ lead := by
    rw [List.mem_append, not_or]
    exact ⟨htr.mem.newline_not_mem, hfault.newline_not_mem⟩
  rw [← List.append_assoc] at hsplit
  exact ⟨tr, lead, h.same_line hsplit hnewline hline, hfault, he.trans hline.symm⟩

/-- Nothing but the end is left where the end is met, since the last character is a newline. -/
theorem Stands.next_eof (h : Stands source read cur) (hnext : cur.next = (.ok t, rest))
    (ht : t.kind = .eof) : rest = cur ∧ t = ⟨.eof, "", cur.line⟩ ∧ cur.rest = [] := by
  obtain ⟨cs, line⟩ := cur
  obtain ⟨htrivia, rfl⟩ := isTrivia_of_next_eof hnext ht
  obtain rfl : cs = [] := by
    by_contra hne
    exact htrivia.newline_not_mem (h.ended.newline_mem hne)
  exact ⟨(Prod.mk.inj (hnext.symm.trans (drain_of_rest_nil rfl).1)).2, rfl, rfl⟩

theorem Stands.next (h : Stands source read cur) :
    ∃ more, Stands source (read ++ more) cur.next.2 := by
  rcases hnext : cur.next with ⟨e | t, rest⟩
  · obtain ⟨tr, lead, hrest, -⟩ := h.next_error hnext
    exact ⟨tr ++ lead, hrest⟩
  by_cases ht : t.kind = .eof
  · obtain ⟨rfl, -⟩ := h.next_eof hnext ht
    exact ⟨[], by rwa [List.append_nil]⟩
  · obtain ⟨tr, lx, text, hsplit, htr, -, hlx, -, hline⟩ := longest_of_next hnext ht
    refine ⟨tr ++ lx, ?_, ?_⟩
    · rw [h.split, hsplit]
      simp only [List.append_assoc]
    · rw [hline, h.line, ← List.append_assoc, count_newline_piece htr.mem hlx]
      split <;> rfl

theorem Stands.after (source : String) (n : Nat) :
    ∃ read, Stands source read ((start source).after n) := by
  induction n with
  | zero => exact ⟨[], stands_start source⟩
  | succ n ih =>
    obtain ⟨read, hread⟩ := ih
    obtain ⟨more, hmore⟩ := hread.next
    rw [after_succ]
    exact ⟨read ++ more, hmore⟩

/-- As long as a character is left, the cursor is on a line of the text. -/
theorem Stands.inText (h : Stands source read cur) (hne : cur.rest ≠ []) :
    InText source cur.line := by
  have hcount := congrArg (List.count '\n') h.split
  have hleft := List.count_pos_iff.mpr (h.ended.newline_mem hne)
  rw [List.count_append, List.count_append, List.count_singleton_self] at hcount
  rw [InText, h.line]
  omega

theorem Stands.line_at_end (h : Stands source read cur) (hnil : cur.rest = []) :
    cur.line = source.toList.count '\n' + 2 := by
  have hsplit := h.split
  rw [hnil, List.append_nil] at hsplit
  rw [h.line, ← hsplit, List.count_append, List.count_singleton_self]
  omega

theorem Stands.line_of_error (h : Stands source read cur) (hnext : cur.next = (.error e, rest)) :
    InText source e.line := by
  rw [(line_of_next_error hnext).2]
  refine h.inText fun hnil => ?_
  rw [(drain_of_rest_nil hnil).1] at hnext
  cases hnext

theorem Stands.line_of_token (h : Stands source read cur) (hnext : cur.next = (.ok t, rest))
    (ht : t.kind ≠ .eof) : InText source t.line := by
  obtain ⟨-, -, text, -, -, -, -, htoken, -⟩ := longest_of_next hnext ht
  rw [htoken]
  refine h.inText fun hnil => ?_
  rw [(drain_of_rest_nil hnil).1] at hnext
  cases hnext
  exact ht rfl

/-- The lines of what is read from a cursor on. -/
theorem Stands.lines_of_drain (h : Stands source read cur) :
    (∀ t ∈ cur.drain.1, t.kind ≠ .eof → InText source t.line) ∧
      (∀ t ∈ cur.drain.1, t.kind = .eof → t.line = source.toList.count '\n' + 2) ∧
        ∀ e, cur.drain.2 = some e → InText source e.line := by
  fun_induction drain cur generalizing read with
  | case1 cur e' rest hnext =>
    refine ⟨List.forall_mem_nil _, List.forall_mem_nil _, fun e he => ?_⟩
    obtain rfl := Option.some.inj he
    exact h.line_of_error hnext
  | case2 cur t rest hnext ht =>
    obtain ⟨-, rfl, hnil⟩ := h.next_eof hnext ht
    refine ⟨fun u hu hne => ?_, fun u hu _ => ?_,
      fun e he => absurd he (Option.some_ne_none e).symm⟩
    · obtain rfl := List.mem_singleton.mp hu
      exact absurd rfl hne
    · obtain rfl := List.mem_singleton.mp hu
      exact h.line_at_end hnil
  | case3 cur t rest hnext ht _ ts e' hrest ih =>
    obtain ⟨more, hmore⟩ := h.next
    rw [hnext] at hmore
    obtain ⟨htokens, hend, hfault⟩ := ih hmore
    rw [hrest] at htokens hend hfault
    refine ⟨List.forall_mem_cons.mpr ⟨fun _ => h.line_of_token hnext ht, htokens⟩,
      List.forall_mem_cons.mpr ⟨fun heof => absurd heof ht, hend⟩, hfault⟩

end Positions

end Cursor

end TeenyToC
