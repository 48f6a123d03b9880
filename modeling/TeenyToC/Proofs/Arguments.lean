import TeenyToC.CommandLine
import TeenyToC.Proofs.TokenList

/-! Command lines that differ in one argument. The items of a command line that is accepted are
taken into the request one after the other (`collect_eq_compile`), and a flag put between its
arguments is one more item between its items, or the line is refused (`inserted_of_parse`). What an
item does to the request does not depend on the items that other fields hold, so a field that only
some items change can be left out together with those items (`fold_filter`). -/

namespace TeenyToC.CommandLine

/-- The request with an item taken into it, unless the item settles the outcome. -/
def Request.add (r : Request) : Item → Option Request
  | .source path => if r.source.isSome then none else some { r with source := some path }
  | .output path => if r.output.isSome then none else some { r with output := some path }
  | .config path => if r.config.isSome then none else some { r with config := some path }
  | .stdout => if r.stdout then none else some { r with stdout := true }
  | .quiet => if r.quiet then none else some { r with quiet := true }
  | .verbose => some { r with verbosity := r.verbosity + 1 }
  | .help | .version | .invalid => none

/-- What each item that is taken changes. -/
inductive Request.Added (r : Request) : Item → Request → Prop
  | source (path : String) (h : r.source = none) :
    Added r (.source path) { r with source := some path }
  | output (path : String) (h : r.output = none) :
    Added r (.output path) { r with output := some path }
  | config (path : String) (h : r.config = none) :
    Added r (.config path) { r with config := some path }
  | stdout (h : r.stdout = false) : Added r .stdout { r with stdout := true }
  | quiet (h : r.quiet = false) : Added r .quiet { r with quiet := true }
  | verbose : Added r .verbose { r with verbosity := r.verbosity + 1 }

def Item.isSource : Item → Bool
  | .source _ => true
  | _ => false

variable {r r' : Request} {i : Item} {is is' : List Item} {source flag : String}

theorem add_eq_some : r.add i = some r' ↔ r.Added i r' := by
  constructor
  · intro h
    cases i with
    | source path =>
      obtain ⟨hnone, rfl⟩ : r.source = none ∧ _ = r' := by simpa [Request.add] using h
      exact .source path hnone
    | output path =>
      obtain ⟨hnone, rfl⟩ : r.output = none ∧ _ = r' := by simpa [Request.add] using h
      exact .output path hnone
    | config path =>
      obtain ⟨hnone, rfl⟩ : r.config = none ∧ _ = r' := by simpa [Request.add] using h
      exact .config path hnone
    | stdout =>
      obtain ⟨hfalse, rfl⟩ : r.stdout = false ∧ _ = r' := by simpa [Request.add] using h
      exact .stdout hfalse
    | quiet =>
      obtain ⟨hfalse, rfl⟩ : r.quiet = false ∧ _ = r' := by simpa [Request.add] using h
      exact .quiet hfalse
    | verbose =>
      obtain rfl := Option.some.inj h
      exact .verbose
    | help | version | invalid => cases h
  · rintro (⟨path, h⟩ | ⟨path, h⟩ | ⟨path, h⟩ | h | h | _) <;> simp [Request.add, *]

theorem collect_nil : collect r [] = .compile source r' ↔ r = r' ∧ r'.source = some source := by
  cases hsource : r.source with
  | none =>
    simp only [collect, hsource, Option.map_none, Option.getD_none, reduceCtorEq, false_iff]
    rintro ⟨rfl, h⟩
    rw [hsource] at h
    cases h
  | some path =>
    simp only [collect, hsource, Option.map_some, Option.getD_some, Action.compile.injEq]
    constructor
    · rintro ⟨rfl, rfl⟩
      exact ⟨rfl, hsource⟩
    · rintro ⟨rfl, h⟩
      exact ⟨Option.some.inj (hsource.symm.trans h), rfl⟩

theorem collect_cons : collect r (i :: is) = .compile source r' ↔
    ∃ m, r.add i = some m ∧ collect m is = .compile source r' := by
  cases i with
  | source path => by_cases h : r.source.isSome <;> simp [collect, Request.add, h]
  | output path => by_cases h : r.output.isSome <;> simp [collect, Request.add, h]
  | config path => by_cases h : r.config.isSome <;> simp [collect, Request.add, h]
  | stdout => by_cases h : r.stdout <;> simp [collect, Request.add, h]
  | quiet => by_cases h : r.quiet <;> simp [collect, Request.add, h]
  | verbose => simp [collect, Request.add]
  | help | version | invalid => simp [collect, Request.add]

theorem collect_eq_compile : collect r is = .compile source r' ↔
    is.foldlM Request.add r = some r' ∧ r'.source = some source := by
  induction is generalizing r with
  | nil => simp [collect_nil]
  | cons i is ih =>
    simp only [collect_cons, ih, List.foldlM_cons, Option.bind_eq_bind, Option.bind_eq_some_iff]
    constructor
    · rintro ⟨m, hadd, hfold, hsource⟩
      exact ⟨⟨m, hadd, hfold⟩, hsource⟩
    · rintro ⟨⟨m, hadd, hfold⟩, hsource⟩
      exact ⟨m, hadd, hfold, hsource⟩

/-- A number that some items add one to, and the others leave. -/
theorem fold_count (size : Request → Nat) {p : Item → Bool}
    (hadd : ∀ r i r', r.Added i r' → size r' = size r + [i].countP p)
    (h : is.foldlM Request.add r = some r') : size r' = size r + is.countP p := by
  induction is generalizing r with
  | nil =>
    cases h
    rfl
  | cons i is ih =>
    rw [List.foldlM_cons, Option.bind_eq_bind, Option.bind_eq_some_iff] at h
    obtain ⟨m, hm, hfold⟩ := h
    rw [ih hfold, hadd r i m (add_eq_some.mp hm), ← List.singleton_append (l := is),
      List.countP_append, Nat.add_assoc]

/-- Items that make no difference to a part of the request can be left out if only that part
matters. -/
theorem fold_filter (part : Request → Request) {p : Item → Bool}
    (hkept : ∀ r i r', p i = true → r.Added i r' → (part r).Added i (part r'))
    (hdropped : ∀ r i r', p i = false → r.Added i r' → part r' = part r)
    (h : is.foldlM Request.add r = some r') :
    (is.filter p).foldlM Request.add (part r) = some (part r') := by
  induction is generalizing r with
  | nil =>
    cases h
    rfl
  | cons i is ih =>
    rw [List.foldlM_cons, Option.bind_eq_bind, Option.bind_eq_some_iff] at h
    obtain ⟨m, hm, hfold⟩ := h
    cases hp : p i with
    | true =>
      rw [List.filter_cons_of_pos hp, List.foldlM_cons,
        add_eq_some.mpr (hkept r i m hp (add_eq_some.mp hm))]
      exact ih hfold
    | false =>
      rw [List.filter_cons_of_neg (by simp [hp]), ← hdropped r i m hp (add_eq_some.mp hm)]
      exact ih hfold

/-- A row of items with one more somewhere in it. -/
def Inserted (i : Item) (is is' : List Item) : Prop :=
  ∃ before after, is = before ++ after ∧ is' = before ++ i :: after

theorem Inserted.append_left (h : Inserted i is is') (found : List Item) :
    Inserted i (found ++ is) (found ++ is') := by
  obtain ⟨before, after, rfl, rfl⟩ := h
  exact ⟨found ++ before, after, by simp, by simp⟩

section
variable {arg : String} {found : List Item} {option : String → Item} {rest : List String}

theorem items_dashes (rest : List String) : items ("--" :: rest) = rest.map .source := by
  rw [items.eq_def]
  exact if_pos rfl

theorem items_of_flags (hdashes : arg ≠ "--") (hread : read arg = (found, none)) :
    items (arg :: rest) = found ++ items rest :=
  (items.eq_2 arg rest found hread).trans (if_neg hdashes)

theorem items_of_option (hdashes : arg ≠ "--") (hread : read arg = (found, some option))
    (value : String) : items (arg :: value :: rest) =
      if isValue value then found ++ option value :: items rest else found ++ [.invalid] :=
  (items.eq_4 arg found option value rest hread).trans (if_neg hdashes)

end

/-- A flag between the arguments is an item, a source, or no value for an option before it. -/
theorem items_insert (hread : read flag = ([i], none)) (hvalue : isValue flag = false)
    (hdashes : flag ≠ "--") (xs ys : List String) :
    Inserted i (items (xs ++ ys)) (items (xs ++ flag :: ys)) ∨
      Inserted (.source flag) (items (xs ++ ys)) (items (xs ++ flag :: ys)) ∨
        .invalid ∈ items (xs ++ flag :: ys) := by
  induction xs using items.induct with
  | case1 => exact .inl ⟨[], items ys, rfl, items_of_flags hdashes hread⟩
  | case2 rest =>
    refine .inr (.inl ⟨rest.map .source, ys.map .source, ?_, ?_⟩)
    · rw [List.cons_append, items_dashes, List.map_append]
    · rw [List.cons_append, items_dashes, List.map_append, List.map_cons]
  | case3 arg harg found rest hfound ih =>
    simp only [List.cons_append, items_of_flags harg hfound]
    rcases ih with ih | ih | ih
    · exact .inl (ih.append_left found)
    · exact .inr (.inl (ih.append_left found))
    · exact .inr (.inr (List.mem_append_right found ih))
  | case4 arg harg found option hfound =>
    refine .inr (.inr ?_)
    rw [List.singleton_append, items_of_option harg hfound, hvalue]
    exact List.mem_append_right found List.mem_cons_self
  | case5 arg harg found option value rest hfound hisValue ih =>
    simp only [List.cons_append, items_of_option harg hfound, if_pos hisValue]
    rcases ih with ih | ih | ih
    · exact .inl ((ih.append_left [option value]).append_left found)
    · exact .inr (.inl ((ih.append_left [option value]).append_left found))
    · exact .inr (.inr (List.mem_append_right found (List.mem_cons_of_mem _ ih)))
  | case6 arg harg found option value rest hfound hnoValue =>
    refine .inr (.inr ?_)
    rw [List.cons_append, List.cons_append, items_of_option harg hfound, if_neg hnoValue]
    exact List.mem_append_right found List.mem_cons_self

theorem countP_isSource (h : is.foldlM Request.add r = some r') :
    r'.source.isSome.toNat = r.source.isSome.toNat + is.countP Item.isSource := by
  refine fold_count (fun r => r.source.isSome.toNat) ?_ h
  intro r i r' hadd
  cases hadd with
  | source path hnone => simp [hnone, Item.isSource]
  | _ => rfl

theorem count_stdout (h : is.foldlM Request.add r = some r') :
    r'.stdout.toNat = r.stdout.toNat + is.countP (· = .stdout) := by
  refine fold_count (fun r => r.stdout.toNat) ?_ h
  intro r i r' hadd
  cases hadd with
  | stdout hfalse => simp [hfalse]
  | _ => rfl

theorem exists_add (h : is.foldlM Request.add r = some r') (hi : i ∈ is) :
    ∃ m m', Request.add m i = some m' := by
  obtain ⟨before, after, rfl⟩ := List.append_of_mem hi
  rw [List.foldlM_append, Option.bind_eq_bind, Option.bind_eq_some_iff] at h
  obtain ⟨m, -, hfold⟩ := h
  rw [List.foldlM_cons, Option.bind_eq_bind, Option.bind_eq_some_iff] at hfold
  obtain ⟨m', hadd, -⟩ := hfold
  exact ⟨m, m', hadd⟩

/-- Where both command lines are accepted, the flag is one more item. -/
theorem inserted_of_parse (hread : read flag = ([i], none)) (hvalue : isValue flag = false)
    (hdashes : flag ≠ "--") {xs ys : List String} {source' : String}
    (h : parse (xs ++ ys) = .compile source r)
    (h' : parse (xs ++ flag :: ys) = .compile source' r') :
    Inserted i (items (xs ++ ys)) (items (xs ++ flag :: ys)) := by
  obtain ⟨hfold, hsource⟩ := collect_eq_compile.mp h
  obtain ⟨hfold', hsource'⟩ := collect_eq_compile.mp h'
  rcases items_insert hread hvalue hdashes xs ys with hins | ⟨before, after, his, his'⟩ | hinvalid
  · exact hins
  · -- the one source of an accepted line is there without the flag
    have hcount := countP_isSource hfold
    have hcount' := countP_isSource hfold'
    rw [hsource, his, List.countP_append] at hcount
    rw [hsource', his', List.countP_append, List.countP_cons_of_pos rfl] at hcount'
    simp only [Option.isSome_some, Bool.toNat_true] at hcount hcount'
    omega
  · obtain ⟨m, m', hadd⟩ := exists_add hfold' hinvalid
    cases hadd

theorem fold_except_stdout (h : is.foldlM Request.add r = some r') :
    (is.filter (· ≠ .stdout)).foldlM Request.add { r with stdout := false } =
      some { r' with stdout := false } := by
  refine fold_filter (fun r => { r with stdout := false }) ?_ ?_ h
  · intro r i r' hi hadd
    cases hadd with
    | source path h => exact .source path h
    | output path h => exact .output path h
    | config path h => exact .config path h
    | stdout => cases hi
    | quiet h => exact .quiet h
    | verbose => exact .verbose
  · intro r i r' hi hadd
    cases hadd with
    | stdout => rfl
    | _ => simp at hi

/-- Where two command lines differ in one `--stdout`, so do the requests. -/
theorem parse_stdout {xs ys : List String} {source' : String}
    (h : parse (xs ++ ys) = .compile source r)
    (h' : parse (xs ++ "--stdout" :: ys) = .compile source' r') :
    source' = source ∧ r.stdout = false ∧ r' = { r with stdout := true } := by
  obtain ⟨before, after, his, his'⟩ := inserted_of_parse rfl rfl (by decide) h h'
  obtain ⟨hfold, hsource⟩ := collect_eq_compile.mp h
  obtain ⟨hfold', hsource'⟩ := collect_eq_compile.mp h'
  obtain ⟨hstdout, hstdout'⟩ : r.stdout = false ∧ r'.stdout = true := by
    have hcount := count_stdout hfold
    have hcount' := count_stdout hfold'
    rw [his, List.countP_append] at hcount
    rw [his', List.countP_append, List.countP_cons_of_pos rfl] at hcount'
    have hle := Bool.toNat_le r'.stdout
    constructor
    · exact Bool.toNat_eq_zero.mp (by omega)
    · exact Bool.toNat_eq_one.mp (by omega)
  have hrest : { r' with stdout := false } = { r with stdout := false } := by
    have hexcept := fold_except_stdout hfold
    have hexcept' := fold_except_stdout hfold'
    rw [his, List.filter_append] at hexcept
    rw [his', List.filter_append, List.filter_cons_of_neg (by simp), hexcept] at hexcept'
    exact (Option.some.inj hexcept').symm
  have hr' : r' = { r with stdout := true } := by
    calc r' = { { r' with stdout := false } with stdout := true } := by rw [← hstdout']
      _ = { r with stdout := true } := by rw [hrest]
  refine ⟨?_, hstdout, hr'⟩
  rw [hr'] at hsource'
  exact Option.some.inj (hsource'.symm.trans hsource)

end TeenyToC.CommandLine
