import Mathlib.Data.List.Dedup
import TeenyToC.Compiler
import TeenyToC.Proofs.Decoding
import TeenyToC.Proofs.QuotedText
import TeenyToC.Proofs.Statements

/-! The log of a compilation. Tokens are read two ahead of the one that is looked at, so the record
of a statement stands behind those of its first token, of the next one and of all before them
(`exists_before`). What an accepted run leaves is `recordsFrom` of its tokens and the totals; a run
that fails leaves the records of some first tokens, and no totals (`compile_records`). A record of a
token tells the token, because the text of it is quoted (`tokenRecord_injective`). -/

namespace TeenyToC

namespace Kind

/-- The name of a kind in the log is one word. -/
theorem all_title (k : Kind) : k.title.toList.all (· ≠ ' ') := by
  have hall : ∀ k ∈ all, k.title.toList.all (· ≠ ' ') := by decide
  exact hall k k.mem_all

theorem title_injective : Function.Injective title := by
  have hall : (all.map title).Nodup := by decide
  exact fun k k' => List.inj_on_of_nodup_map hall k.mem_all k'.mem_all

end Kind

namespace Log

def ofLevel (level : Level) (log : List Record) : List Record := log.filter (·.level = level)

/-- The record of a token with which a statement starts. -/
def startRecord (t : Token) : Record := statementRecord t.kind t.line

/-- What the record of a token says. -/
theorem tokenRecord_eq (t : Token) : tokenRecord t = ⟨.trace, "teeny_core::lexer", "token " ++
    t.kind.title ++ " " ++ Text.quote t.text ++ " (line " ++ toString t.line ++ ")"⟩ := by
  simp only [tokenRecord, atLine, String.append_assoc]

/-- No two tokens have the same record. -/
theorem tokenRecord_injective : Function.Injective tokenRecord := by
  rintro ⟨kind, text, line⟩ ⟨kind', text', line'⟩ h
  have hmessage := congrArg (fun r => r.message.toList) h
  have hblank : " ".toList = [' '] := rfl
  simp only [tokenRecord, atLine, String.toList_append, hblank, List.append_assoc,
    List.singleton_append, List.append_cancel_left_eq] at hmessage
  -- The name of the kind ends at the first blank.
  obtain ⟨htitle, hrest⟩ := append_cons_inj kind.all_title kind'.all_title rfl rfl hmessage
  obtain ⟨rfl, hbehind⟩ := Text.quote_append_inj (List.cons.inj hrest).2
  have hline := List.append_cancel_right (List.append_cancel_left hbehind)
  obtain rfl := Kind.title_injective (String.toList_inj.mp htitle)
  obtain rfl : line = line' := Nat.repr_injective (String.toList_inj.mp hline)
  rfl

/-- A statement is recorded under the keyword that it starts with. -/
theorem startRecord_eq {t : Token} (hvalid : t.word.Valid) (hleads : t.kind.leads) :
    startRecord t = ⟨.debug, "teeny_core::parser",
      "statement " ++ t.text ++ " (line " ++ toString t.line ++ ")"⟩ := by
  obtain ⟨kind, text, line⟩ := t
  cases kind with
  | keyword k =>
    obtain rfl : text = k.spelling := String.toList_inj.mp (of_decide_eq_true hvalid.admits)
    rfl
  | _ => cases hleads

/-- The records of a run that accepts the tokens, once the first two of them have been read. -/
def recordsFrom : List Token → List Record
  | [] => []
  | t :: ts => ([t].filter (·.kind.leads)).map startRecord ++
      ((ts.drop 1).head?.toList.map tokenRecord ++ recordsFrom ts)

theorem ofLevel_append (level : Level) (log log' : List Record) :
    ofLevel level (log ++ log') = ofLevel level log ++ ofLevel level log' := List.filter_append ..

theorem ofEvents_append (es es' : List Event) :
    ofEvents (es ++ es') = ofEvents es ++ ofEvents es' := List.filterMap_append

theorem ofEvents_append_cons (es es' : List Event) (e : Event) :
    ofEvents (es ++ e :: es') = ofEvents es ++ (ofEvents [e] ++ ofEvents es') := by
  rw [List.append_cons, ofEvents_append, ofEvents_append, List.append_assoc]

theorem ofLevel_map {α : Type} {f : α → Record} {own : Level} (hf : ∀ a, (f a).level = own)
    (level : Level) (xs : List α) :
    ofLevel level (xs.map f) = if own = level then xs.map f else [] := by
  split
  · next h => exact List.filter_eq_self.mpr (by simp [hf, h])
  · next h => exact List.filter_eq_nil_iff.mpr (by simp [hf, h])

theorem ofLevel_tokens (level : Level) (ts : List Token) :
    ofLevel level (ts.map tokenRecord) = if .trace = level then ts.map tokenRecord else [] :=
  ofLevel_map (f := tokenRecord) (fun _ => rfl) level ts

theorem ofLevel_starts (level : Level) (ts : List Token) :
    ofLevel level (ts.map startRecord) = if .debug = level then ts.map startRecord else [] :=
  ofLevel_map (f := startRecord) (fun _ => rfl) level ts

theorem ofLevel_totals (level : Level) (variableCount labelCount jumpCount : Nat) :
    ofLevel level [finishedRecord variableCount labelCount jumpCount] =
      if .info = level then [finishedRecord variableCount labelCount jumpCount] else [] := by
  cases level <;> rfl

theorem ofLevel_scanned (level : Level) (r : Except LexError Token) :
    ofLevel level (ofEvents [.scanned r]) =
      if .trace = level then ofEvents [.scanned r] else [] := by
  have hrecords : ∃ ts : List Token, ofEvents [.scanned r] = ts.map tokenRecord := by
    rcases r with e | t
    · exact ⟨[], rfl⟩
    · by_cases ht : t.kind = .eof
      · exact ⟨[], by simp [ofEvents, ofEvent?, ht]⟩
      · exact ⟨[t], by simp [ofEvents, ofEvent?, ht]⟩
  obtain ⟨ts, hts⟩ := hrecords
  rw [hts, ofLevel_tokens]

theorem ofLevel_begun (s : Compilation) (t : Token) (begun : List Event)
    (h : begun = if s.begins t then [.statement t.kind t.line] else []) (level : Level) :
    ofLevel level (ofEvents begun) = if .debug = level then ofEvents begun else [] := by
  have hrecords : ∃ ts : List Token, ofEvents begun = ts.map startRecord := by
    rw [h]
    split
    · exact ⟨[t], rfl⟩
    · exact ⟨[], rfl⟩
  obtain ⟨ts, hts⟩ := hrecords
  rw [hts, ofLevel_starts]

/-- What has been recorded before one of the tokens is looked at. -/
theorem exists_before (ts : List Token) (i : Nat) : ∃ before,
    recordsFrom ts = before ++ recordsFrom (ts.drop i) ∧
      ofLevel .trace before = ((ts.drop 2).take i).map tokenRecord ∧
        ofLevel .debug before = ((ts.take i).filter (·.kind.leads)).map startRecord ∧
          ofLevel .info before = [] := by
  induction i generalizing ts with
  | zero => exact ⟨[], rfl, by simp [ofLevel], by simp [ofLevel], rfl⟩
  | succ i ih =>
    cases ts with
    | nil => exact ⟨[], rfl, by simp [ofLevel], by simp [ofLevel], rfl⟩
    | cons t ts =>
      obtain ⟨before, hsplit, htrace, hdebug, hinfo⟩ := ih ts
      have hread : (ts.drop 1).head?.toList ++ (ts.drop 2).take i = (ts.drop 1).take (i + 1) := by
        rcases ts with _ | ⟨t', _ | ⟨t'', ts⟩⟩ <;> simp
      have hstart : [t].filter (·.kind.leads) ++ (ts.take i).filter (·.kind.leads) =
          ((t :: ts).take (i + 1)).filter (·.kind.leads) := (List.filter_append ..).symm
      refine ⟨([t].filter (·.kind.leads)).map startRecord ++
        ((ts.drop 1).head?.toList.map tokenRecord ++ before), ?_, ?_, ?_, ?_⟩
      · rw [recordsFrom, hsplit, List.drop_succ_cons, List.append_assoc, List.append_assoc]
      · simp only [ofLevel_append, ofLevel_starts, ofLevel_tokens, reduceCtorEq, if_true, if_false,
          htrace, List.nil_append, ← List.map_append, hread, List.drop_succ_cons]
      · simp only [ofLevel_append, ofLevel_starts, ofLevel_tokens, reduceCtorEq, if_true, if_false,
          hdebug, List.nil_append, ← List.map_append, hstart]
      · simp only [ofLevel_append, ofLevel_starts, ofLevel_tokens, reduceCtorEq, if_false, hinfo,
          List.append_nil]

/-- What has been recorded before a statement that starts at one of the tokens. -/
theorem exists_before_start {ts : List Token} {i : Nat} (hi : i < ts.length)
    (hleads : ts[i].kind.leads) : ∃ before after,
      recordsFrom ts = before ++ startRecord ts[i] :: after ∧
        ofLevel .trace before = ((ts.drop 2).take i).map tokenRecord ∧
          ofLevel .debug before = ((ts.take i).filter (·.kind.leads)).map startRecord := by
  obtain ⟨before, hbefore, htrace, hdebug, -⟩ := exists_before ts i
  have hstart : recordsFrom (ts.drop i) = startRecord ts[i] ::
      (((ts.drop (i + 1)).drop 1).head?.toList.map tokenRecord ++
        recordsFrom (ts.drop (i + 1))) := by
    rw [List.drop_eq_getElem_cons hi, recordsFrom, List.filter_singleton, hleads]
    rfl
  exact ⟨before, _, hstart ▸ hbefore, htrace, hdebug⟩

/-- All of the records but those of the first two tokens. -/
theorem ofLevel_recordsFrom (ts : List Token) :
    ofLevel .trace (recordsFrom ts) = (ts.drop 2).map tokenRecord ∧
      ofLevel .debug (recordsFrom ts) = (ts.filter (·.kind.leads)).map startRecord ∧
        ofLevel .info (recordsFrom ts) = [] := by
  obtain ⟨all, hall, htrace, hdebug, hinfo⟩ := exists_before ts ts.length
  rw [List.drop_length, recordsFrom, List.append_nil] at hall
  have hrest : (ts.drop 2).take ts.length = ts.drop 2 := List.take_of_length_le (by simp)
  rw [hrest] at htrace
  rw [List.take_length] at hdebug
  rw [hall]
  exact ⟨htrace, hdebug, hinfo⟩

/-- What the log of an accepted program holds, for its tokens and its tree. The records of the
tokens are those of no other tokens. -/
structure Recorded (ts : List Token) (prog : Program) (log : List Record) : Prop where
  levels : ∀ r ∈ log, r.level = .trace ∨ r.level = .debug ∨ r.level = .info
  tokens : ∀ us : List Token, (ofLevel .trace log = us.map fun t => ⟨.trace, "teeny_core::lexer",
    "token " ++ t.kind.title ++ " " ++ Text.quote t.text ++ " (line " ++ toString t.line ++ ")"⟩) ↔
      us = ts
  starts : ofLevel .debug log = (ts.filter (·.kind.leads)).map fun t =>
    ⟨.debug, "teeny_core::parser", "statement " ++ t.text ++ " (line " ++ toString t.line ++ ")"⟩
  heads : (ts.filter (·.kind.leads)).map Token.kind = prog.heads.map .keyword
  ahead : ∀ (i : Nat) (hi : i < ts.length), ts[i].kind.leads → ∃ before after,
    log = before ++ ⟨.debug, "teeny_core::parser",
      "statement " ++ ts[i].text ++ " (line " ++ toString ts[i].line ++ ")"⟩ :: after ∧
        (ofLevel .debug before).length = ((ts.take i).filter (·.kind.leads)).length ∧
          (ofLevel .trace before).length = min (i + 2) ts.length
  totals : ∃ before, ofLevel .info before = [] ∧
    log = before ++ [⟨.info, "teeny_core::parser",
      "parse ok : " ++ toString prog.targets.length ++ " variable(s), " ++
        toString prog.labels.dedup.length ++ " label(s), " ++
          toString prog.jumps.length ++ " goto"⟩]

theorem level_of_mem {events : List Event} {r : Record} (h : r ∈ ofEvents events) :
    r.level = .trace ∨ r.level = .debug ∨ r.level = .info := by
  obtain ⟨event, -, hr⟩ := List.mem_filterMap.mp h
  unfold ofEvent? at hr
  split at hr
  · split at hr
    · cases hr
    · cases hr
      exact .inl rfl
  · cases hr
  · cases hr
    exact .inr (.inl rfl)
  · cases hr
    exact .inr (.inr rfl)

/-- The log of a run that accepts its tokens. -/
theorem recorded_of_eq {ts : List Token} {prog : Program} {events : List Event}
    (hvalid : ∀ t ∈ ts, t.word.Valid) (hp : prog.Parses (ts.map Token.word))
    (h : ofEvents events = (ts.take 2).map tokenRecord ++ recordsFrom ts ++
      [finishedRecord prog.targets.length prog.labels.dedup.length prog.jumps.length]) :
    Recorded ts prog (ofEvents events) := by
  obtain ⟨htrace, hdebug, hinfo⟩ := ofLevel_recordsFrom ts
  refine ⟨fun r => level_of_mem, fun us => ?tokens, ?starts, ?heads, fun i hi hleads => ?ahead,
    ?totals⟩
  case tokens =>
    have htokens : ofLevel .trace (ofEvents events) = ts.map tokenRecord := by
      simp only [h, ofLevel_append, ofLevel_tokens, ofLevel_totals, htrace, reduceCtorEq, if_true,
        if_false, List.append_nil, ← List.map_append, List.take_append_drop]
    rw [← funext tokenRecord_eq, htokens, tokenRecord_injective.list_map.eq_iff]
    exact eq_comm
  case starts =>
    have hstarts : ofLevel .debug (ofEvents events) =
        (ts.filter (·.kind.leads)).map startRecord := by
      simp only [h, ofLevel_append, ofLevel_tokens, ofLevel_totals, hdebug, reduceCtorEq, if_false,
        List.append_nil, List.nil_append]
    refine hstarts.trans (List.map_congr_left fun t ht => ?_)
    obtain ⟨hmem, hleads⟩ := List.mem_filter.mp ht
    exact startRecord_eq (hvalid t hmem) hleads
  case heads =>
    have hleading : leading (ts.map Token.word) = (ts.filter (·.kind.leads)).map Token.kind := by
      simp only [leading, List.map_map, List.filter_map]
      rfl
    rw [← hleading, heads_of_parses hp]
  case ahead =>
    obtain ⟨before, after, hsplit, htrace, hdebug⟩ := exists_before_start hi hleads
    refine ⟨(ts.take 2).map tokenRecord ++ before, after ++ [finishedRecord prog.targets.length
      prog.labels.dedup.length prog.jumps.length], ?_, ?_, ?_⟩
    · rw [h, hsplit, ← startRecord_eq (hvalid _ (List.getElem_mem hi)) hleads]
      simp only [List.append_assoc, List.cons_append]
    · simp only [ofLevel_append, ofLevel_tokens, reduceCtorEq, if_false, hdebug, List.nil_append,
        List.length_map]
    · simp only [ofLevel_append, ofLevel_tokens, if_true, htrace, List.length_append,
        List.length_map, List.length_take, List.length_drop]
      omega
  case totals =>
    refine ⟨(ts.take 2).map tokenRecord ++ recordsFrom ts, ?_, h⟩
    simp only [ofLevel_append, ofLevel_tokens, reduceCtorEq, if_false, hinfo, List.append_nil]

end Log

open Log

def untilEnd (ts : List Token) : List Token := ts.takeWhile (·.kind ≠ .eof)

section
variable {t : Token} {ts us : List Token}

theorem untilEnd_of_eof (ht : t.kind = .eof) : untilEnd (t :: ts) = [] :=
  List.takeWhile_cons_of_neg (by simpa using ht)

theorem untilEnd_of_ne_eof (ht : t.kind ≠ .eof) : untilEnd (t :: ts) = t :: untilEnd ts :=
  List.takeWhile_cons_of_pos (by simpa using ht)

theorem untilEnd_cons_congr (t : Token) (h : untilEnd ts = untilEnd us) :
    untilEnd (t :: ts) = untilEnd (t :: us) := by
  by_cases ht : t.kind = .eof
  · rw [untilEnd_of_eof ht, untilEnd_of_eof ht]
  · rw [untilEnd_of_ne_eof ht, untilEnd_of_ne_eof ht, h]

end

theorem records_of_eof {t : Token} (ht : t.kind = .eof) : ofEvents [.scanned (.ok t)] = [] := by
  simp [ofEvents, ofEvent?, ht]

theorem records_of_ne_eof {t : Token} (ht : t.kind ≠ .eof) :
    ofEvents [.scanned (.ok t)] = [tokenRecord t] := by
  simp [ofEvents, ofEvent?, ht]

namespace Cursor

/-- The tokens that are read from a cursor on, up to the end of the text or a fault. -/
def upcoming (cur : Cursor) : List Token := untilEnd cur.drain.1

variable {cur rest : Cursor} {t : Token}

theorem upcoming_of_next (h : cur.next = (.ok t, rest)) :
    cur.upcoming = untilEnd (t :: rest.drain.1) := by
  by_cases ht : t.kind = .eof
  · rw [upcoming, drain_of_eof h ht, untilEnd_of_eof ht, untilEnd_of_eof ht]
  · rw [upcoming, drain_of_ne_eof h ht]

theorem records_of_next (h : cur.next = (.ok t, rest)) : cur.upcoming.map tokenRecord =
    ofEvents [.scanned (.ok t)] ++ rest.upcoming.map tokenRecord := by
  rw [upcoming_of_next h]
  by_cases ht : t.kind = .eof
  · obtain ⟨-, hrest⟩ := drain_of_rest_nil (rest_of_next_eof h ht)
    rw [records_of_eof ht, untilEnd_of_eof ht, upcoming, hrest]
    rfl
  · rw [records_of_ne_eof ht, untilEnd_of_ne_eof ht]
    rfl

/-- At the end of the text there is nothing but its end. -/
theorem eof_of_next (h : cur.next = (.ok t, rest)) (hcur : cur.rest = []) : t.kind = .eof := by
  obtain ⟨hend, -⟩ := drain_of_rest_nil hcur
  obtain rfl : t = _ := Except.ok.inj (Prod.mk.inj (h.symm.trans hend)).1
  rfl

end Cursor

namespace Window

/-- The tokens of a window and those to come, up to the end of the text. -/
def pending (w : Window) : List Token := untilEnd (w.current :: w.ahead :: w.cursor.drain.1)

/-- Once the end of the text is in the window, nothing is left to read. -/
def Spent (w : Window) : Prop := w.ahead.kind = .eof → w.cursor.rest = []

variable {w : Window} {s s' : Compilation} {cur rest : Cursor} {t : Token} {events : List Event}

theorem pending_of_eof (hc : w.current.kind = .eof) : w.pending = [] := untilEnd_of_eof hc

theorem pending_of_next (hc : w.current.kind ≠ .eof) (h : w.cursor.next = (.ok t, rest)) :
    w.pending = w.current :: (Window.mk w.ahead t rest).pending :=
  (untilEnd_of_ne_eof hc).trans
    (congrArg _ (untilEnd_cons_congr w.ahead (Cursor.upcoming_of_next h)))

theorem spent_of_next (h : cur.next = (.ok t, rest)) (current : Token) :
    (Window.mk current t rest).Spent := Cursor.rest_of_next_eof h

/-- The token read last is the second one of those that are pending then. -/
theorem read_of_next (hw : w.Spent) (h : w.cursor.next = (.ok t, rest)) :
    ofEvents [.scanned (.ok t)] =
      ((Window.mk w.ahead t rest).pending.drop 1).head?.toList.map tokenRecord := by
  by_cases ha : w.ahead.kind = .eof
  · rw [records_of_eof (Cursor.eof_of_next h (hw ha)), pending_of_eof (by exact ha)]
    rfl
  · rw [pending, untilEnd_of_ne_eof (by exact ha)]
    by_cases ht : t.kind = .eof
    · rw [records_of_eof ht, untilEnd_of_eof (by exact ht)]
      rfl
    · rw [records_of_ne_eof ht, untilEnd_of_ne_eof (by exact ht)]
      rfl

theorem start_of_step {m : Compilation} (h : s.step t = .ok m) :
    ofEvents (if s.begins t then [.statement t.kind t.line] else []) =
      ([t].filter (·.kind.leads)).map startRecord := by
  rw [Compilation.begins_of_step h]
  cases hleads : t.kind.leads <;> simp [ofEvents, ofEvent?, hleads, startRecord]

/-- The records of an accepted run, from any window on. -/
theorem records_of_run (hw : w.Spent) (h : (w.run s).1 = .ok s') :
    ofEvents (w.run s).2 = recordsFrom w.pending ++
      [finishedRecord s'.declared.length s'.labels.length s'.jumps.length] := by
  fun_induction run s w with
  | case1 => cases h
  | case2 s w hc m hfinish =>
    cases h
    rw [pending_of_eof hc]
    rfl
  | case3 => cases h
  | case4 => cases h
  | case5 s w hc begun m hstep t rest hnext _ result events hrun =>
    rename_i ih
    rw [hrun] at ih
    have hbegun : ofEvents begun = ([w.current].filter (·.kind.leads)).map startRecord :=
      start_of_step hstep
    rw [ofEvents_append_cons, hbegun, read_of_next hw hnext, ih (spent_of_next hnext _) h,
      pending_of_next hc hnext, recordsFrom, List.append_assoc, List.append_assoc]

/-- Whatever becomes of a run, it reads the next tokens in their order. -/
theorem trace_of_run (s : Compilation) (w : Window) :
    ofLevel .trace (ofEvents (w.run s).2) <+: w.cursor.upcoming.map tokenRecord := by
  fun_induction run s w with
  | case1 => exact List.nil_prefix
  | case2 => exact List.nil_prefix
  | case3 s w hc begun =>
    rw [ofLevel_begun s w.current begun rfl]
    exact List.nil_prefix
  | case4 s w hc begun _ _ e rest =>
    rw [ofEvents_append, ofLevel_append, ofLevel_begun s w.current begun rfl]
    exact List.nil_prefix
  | case5 s w hc begun m hstep t rest hnext _ result events hrun =>
    rename_i ih
    rw [hrun] at ih
    rw [ofEvents_append_cons, ofLevel_append, ofLevel_append, ofLevel_begun s w.current begun rfl,
      ofLevel_scanned, Cursor.records_of_next hnext, if_neg (by decide), if_pos rfl,
      List.nil_append]
    exact (List.prefix_append_right_inj _).mpr ih

/-- A run that fails leaves no totals. -/
theorem info_of_run_error {e : CompileError} (h : (w.run s).1 = .error e) :
    ofLevel .info (ofEvents (w.run s).2) = [] := by
  fun_induction run s w with
  | case1 => rfl
  | case2 => cases h
  | case3 s w hc begun => exact ofLevel_begun s w.current begun rfl .info
  | case4 s w hc begun =>
    rw [ofEvents_append, ofLevel_append, ofLevel_begun s w.current begun rfl]
    rfl
  | case5 s w hc begun m hstep t rest hnext _ result events hrun =>
    rename_i ih
    rw [hrun] at ih
    rw [ofEvents_append_cons, ofLevel_append, ofLevel_append, ofLevel_begun s w.current begun rfl,
      ofLevel_scanned, ih h]
    rfl

/-- The first two tokens, of which each may be the end of the text. -/
theorem records_of_prime (h : prime cur = (.ok w, events)) : w.Spent ∧ w.pending = cur.upcoming ∧
    cur.upcoming.map tokenRecord = ofEvents events ++ w.cursor.upcoming.map tokenRecord ∧
      ofEvents events = (w.pending.take 2).map tokenRecord := by
  unfold prime at h
  split at h
  · cases h
  · next t mid hnext =>
    split at h
    · cases h
    · next ahead rest hnext' =>
      cases h
      have hpending : (Window.mk t ahead rest).pending = cur.upcoming :=
        (untilEnd_cons_congr t (Cursor.upcoming_of_next hnext').symm).trans
          (Cursor.upcoming_of_next hnext).symm
      refine ⟨spent_of_next hnext' t, hpending, ?_, ?_⟩
      · rw [Cursor.records_of_next hnext, Cursor.records_of_next hnext', ← List.append_assoc,
          ← ofEvents_append]
        rfl
      by_cases ht : t.kind = .eof
      · have ha := Cursor.eof_of_next hnext' (Cursor.rest_of_next_eof hnext ht)
        rw [← List.singleton_append, ofEvents_append, records_of_eof ht, records_of_eof ha,
          pending_of_eof (by exact ht)]
        rfl
      · rw [← List.singleton_append, ofEvents_append, records_of_ne_eof ht, pending,
          untilEnd_of_ne_eof (by exact ht)]
        by_cases ha : ahead.kind = .eof
        · rw [records_of_eof ha, untilEnd_of_eof (by exact ha)]
          rfl
        · rw [records_of_ne_eof ha, untilEnd_of_ne_eof (by exact ha)]
          rfl

theorem records_of_prime_error {e : LexError} (h : prime cur = (.error e, events)) :
    ofLevel .info (ofEvents events) = [] ∧
      ofLevel .trace (ofEvents events) <+: cur.upcoming.map tokenRecord := by
  unfold prime at h
  split at h
  · cases h
    exact ⟨rfl, List.nil_prefix⟩
  · next t mid hnext =>
    split at h
    · cases h
      rw [← List.singleton_append, ofEvents_append, ofLevel_append, ofLevel_append, ofLevel_scanned,
        ofLevel_scanned, ofLevel_scanned, ofLevel_scanned, if_neg (by decide), if_neg (by decide),
        if_pos rfl, if_pos rfl, Cursor.records_of_next hnext]
      exact ⟨rfl, (List.prefix_append_right_inj _).mpr List.nil_prefix⟩
    · cases h

end Window

/-- The state at the end of a program counts what its tree holds. -/
theorem Compilation.totals_of_through {ts : List Token} {ws : List Word} {prog : Program}
    {s : Compilation} (hws : ts.map Token.word = ws ++ [eofWord]) (hvalid : ∀ w ∈ ws, w.Valid)
    (hp : prog.Parses ws) (h : start.through ts = .ok s) :
    s.declared.length = prog.targets.length ∧ s.labels.length = prog.labels.dedup.length ∧
      s.jumps.length = prog.jumps.length := by
  have hne : ∀ t ∈ ws.map Token.ofWord, t.kind ≠ .eof := by
    intro t ht
    obtain ⟨w, hw, rfl⟩ := List.mem_map.mp ht
    exact (hvalid w hw).ne_eof
  have hwords : start.through ((ws ++ [eofWord]).map .ofWord) = .ok s.unlined := by
    rw [← hws, List.map_map, ← unlinedResult_ok, ← h]
    exact (through_unlined start ts).symm
  rw [List.map_append, through_append hne] at hwords
  obtain ⟨m, hread, hfinish⟩ := bind_eq_ok.mp hwords
  rw [List.map_singleton, through_of_eof rfl] at hfinish
  obtain ⟨-, -, -, hs⟩ := (finish_eq_ok_iff rfl).mp hfinish
  obtain ⟨hadmits, rfl⟩ := (read_parses hp).mp hread
  obtain ⟨-, hdistinct⟩ := admits_start_iff.mp hadmits
  have hdeclared : s.unlined.declared = (start.mentionAll prog.mentions).declared := by rw [hs]; rfl
  have hlabels : s.unlined.labels = (start.mentionAll prog.mentions).labels := by rw [hs]; rfl
  have hjumps : s.unlined.jumps = (start.mentionAll prog.mentions).jumps := by rw [hs]; rfl
  have hlength : s.unlined.jumps.length = s.jumps.length := List.length_map ..
  rw [declared_mentionAll_start] at hdeclared
  rw [labels_mentionAll] at hlabels
  rw [jumps_mentionAll] at hjumps
  refine ⟨(congrArg List.length hdeclared).trans ?_, (congrArg List.length hlabels).trans ?_,
    hlength.symm.trans ((congrArg List.length hjumps).trans ?_)⟩
  · rw [List.length_reverse, prog.targets_eq]
  · rw [prog.labels_eq, hdistinct.dedup]
    simp [start]
  · rw [prog.jumps_eq]
    simp [start]

/-- The log of a compilation at the most detailed level. -/
def tracedLog (source : String) : List Record :=
  (Compiler.compileText source).2.filter (·.within .trace)

section
variable {source : String} {c : CSource} {ts : List Token} {eof : Token} {prog : Program}

/-- Every record is kept at that level. -/
theorem tracedLog_eq (source : String) :
    tracedLog source = ofEvents (Cursor.start source).compile.2 := by
  refine List.filter_eq_self.mpr fun r _ => ?_
  obtain ⟨level, target, message⟩ := r
  cases level <;> rfl

theorem upcoming_of_tokenize (hts : tokenize source = .ok (ts ++ [eof]))
    (hvalid : ∀ t ∈ ts, t.word.Valid) (heof : eof.word = eofWord) :
    (Cursor.start source).upcoming = ts := by
  have hne : ∀ t ∈ ts, decide (t.kind ≠ .eof) = true := fun t ht =>
    decide_eq_true (hvalid t ht).ne_eof
  have hend : untilEnd [eof] = [] := untilEnd_of_eof (congrArg Prod.fst heof)
  rw [Cursor.upcoming, drain_of_tokenize hts, untilEnd, List.takeWhile_append_of_pos hne]
  exact (congrArg (ts ++ ·) hend).trans (List.append_nil ts)

theorem recorded_of_compile (hc : compile source = .ok c)
    (hts : tokenize source = .ok (ts ++ [eof])) (hvalid : ∀ t ∈ ts, t.word.Valid)
    (heof : eof.word = eofWord) (hp : prog.Parses (ts.map Token.word)) :
    Recorded ts prog (tracedLog source) := by
  have hupcoming := upcoming_of_tokenize hts hvalid heof
  rw [tracedLog_eq]
  refine recorded_of_eq hvalid hp ?_
  obtain ⟨w, events, hprime, hrun⟩ := Window.exists_prime (drain_of_tokenize hts)
  obtain ⟨hspent, hpending, -, hevents⟩ := Window.records_of_prime hprime
  rw [compile_of_tokenize hts] at hc
  cases hthrough : Compilation.start.through (ts ++ [eof]) with
  | error e =>
    rw [hthrough] at hc
    cases hc
  | ok s =>
    have haccepted : (w.run .start).1 = .ok s := by rw [hrun, hthrough]; rfl
    have hws : (ts ++ [eof]).map Token.word = ts.map Token.word ++ [eofWord] := by simp [heof]
    have hwords : ∀ w ∈ ts.map Token.word, w.Valid := by simpa using hvalid
    obtain ⟨hdeclared, hlabels, hjumps⟩ :=
      Compilation.totals_of_through hws hwords hp hthrough
    simp only [Cursor.compile, hprime, ofEvents_append, hevents,
      Window.records_of_run hspent haccepted, hpending, hupcoming, hdeclared, hlabels, hjumps,
      List.append_assoc]

end

/-- The log of a compilation holds its tokens and statements in order, and at the end the totals of
a program that is accepted. -/
theorem compile_records (source : String) :
    (∀ c, compile source = .ok c → ∃ ts eof, tokenize source = .ok (ts ++ [eof]) ∧
      eof.kind = .eof ∧ (∃ prog : Program, prog.Parses (ts.map Token.word)) ∧
        ∀ prog : Program, prog.Parses (ts.map Token.word) → Recorded ts prog (tracedLog source)) ∧
    ∀ e, compile source = .error e → ofLevel .info (tracedLog source) = [] ∧
      ofLevel .trace (tracedLog source) <+: (Cursor.start source).upcoming.map fun t =>
        ⟨.trace, "teeny_core::lexer", "token " ++ t.kind.title ++ " " ++ Text.quote t.text ++
          " (line " ++ toString t.line ++ ")"⟩ := by
  rw [← funext tokenRecord_eq]
  constructor
  · intro c hc
    obtain ⟨all, ws, prog, hall, hws, hp, -, -, -⟩ := exists_parses hc
    obtain ⟨ts, eof, rfl, heof, hvalid⟩ := tokenize_eq_append hall
    have hwords : ts.map Token.word = ws := by
      rw [List.map_append, List.map_singleton, heof] at hws
      exact List.append_cancel_right hws
    exact ⟨ts, eof, hall, congrArg Prod.fst heof, ⟨prog, hwords ▸ hp⟩,
      fun prog => recorded_of_compile hc hall hvalid heof⟩
  · intro e he
    rw [tracedLog_eq]
    unfold compile Cursor.compile at he
    unfold Cursor.compile
    split at he
    · next e' events hprime =>
      exact Window.records_of_prime_error hprime
    · next w events hprime =>
      obtain ⟨-, -, hrecords, hevents⟩ := Window.records_of_prime hprime
      change (w.run .start).1.map Compilation.code = .error e at he
      have hrun : (w.run .start).1 = .error e := by
        cases hresult : (w.run .start).1 with
        | error e' => rw [hresult] at he; exact congrArg Except.error (Except.error.inj he)
        | ok s => rw [hresult] at he; cases he
      dsimp only
      rw [ofEvents_append, ofLevel_append, ofLevel_append, Window.info_of_run_error hrun, hrecords,
        hevents, ofLevel_tokens, ofLevel_tokens, if_neg (by decide), if_pos rfl]
      exact ⟨rfl, (List.prefix_append_right_inj _).mpr (Window.trace_of_run .start w)⟩

/-- A label in a block, and a jump without a label, which is found out at the end of the text. -/
theorem compile_records_label :
    (∃ c ts eof, compile "IF 1 > 0 THEN\nLABEL a\nENDIF" = .ok c ∧
      tokenize "IF 1 > 0 THEN\nLABEL a\nENDIF" = .ok (ts ++ [eof]) ∧
        (∃ prog : Program, prog.Parses (ts.map Token.word)) ∧
          ∀ prog : Program, prog.Parses (ts.map Token.word) →
            Recorded ts prog (tracedLog "IF 1 > 0 THEN\nLABEL a\nENDIF")) ∧
    (tracedLog "IF 1 > 0 THEN\nLABEL a\nENDIF").map (·.message) =
      ["token If \"IF\" (line 1)", "token Number \"1\" (line 1)", "statement IF (line 1)",
        "token Gt \">\" (line 1)", "token Number \"0\" (line 1)", "token Then \"THEN\" (line 1)",
        "token Newline \"\\n\" (line 1)", "token Label \"LABEL\" (line 2)",
        "token Ident \"a\" (line 2)", "statement LABEL (line 2)",
        "token Newline \"\\n\" (line 2)", "token EndIf \"ENDIF\" (line 3)",
        "token Newline \"\\n\" (line 3)", "parse ok : 0 variable(s), 1 label(s), 0 goto"] ∧
    compile "GOTO a" = .error (.parse ⟨1, .undeclaredLabel "a"⟩) ∧
      ofLevel .info (tracedLog "GOTO a") = [] ∧
        (ofLevel .trace (tracedLog "GOTO a") <+: (Cursor.start "GOTO a").upcoming.map fun t =>
          ⟨.trace, "teeny_core::lexer", "token " ++ t.kind.title ++ " " ++ Text.quote t.text ++
            " (line " ++ toString t.line ++ ")"⟩) ∧
          (tracedLog "GOTO a").map (·.message) =
            ["token Goto \"GOTO\" (line 1)", "token Ident \"a\" (line 1)",
              "statement GOTO (line 1)", "token Newline \"\\n\" (line 1)"] := by
  have h : compile "IF 1 > 0 THEN\nLABEL a\nENDIF" = .ok
      ⟨"#include <stdio.h>\nint main(void)\x7b\n",
        "if(1 > 0)\x7b\na:;\n\x7d\nreturn 0;\n\x7d\n"⟩ := by cbv
  have hjump : compile "GOTO a" = .error (.parse ⟨1, .undeclaredLabel "a"⟩) := by cbv
  obtain ⟨ts, eof, hts, -, hprog, hrecorded⟩ := (compile_records _).1 _ h
  obtain ⟨hinfo, htrace⟩ := (compile_records "GOTO a").2 _ hjump
  exact ⟨⟨_, ts, eof, h, hts, hprog, hrecorded⟩, by decide +kernel, hjump, hinfo, htrace,
    by decide +kernel⟩

end TeenyToC
