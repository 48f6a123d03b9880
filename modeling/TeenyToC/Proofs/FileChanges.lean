import Mathlib.Data.List.DropRight
import TeenyToC.Files.Tree
import TeenyToC.Proofs.TokenList

/-! How a tree of files changes. Writing a file and making a directory put one entry at a place
where no directory is, so a walk that succeeded before leads to the same place afterwards
(`Keeps.resolve`). What making the directories of a path changes is that places where nothing was
become directories, each of which one of the paths given names (`grows_makeDirs`). -/

namespace TeenyToC

namespace Files

/-- The text of a path up to the end of a part that names something, where another such part comes
after it: the path of a directory that the file lies in. -/
def Encloses (dir path : String) : Prop :=
  ∃ outer part inner, split path.toList = outer ++ part :: inner ∧ isFiller part = false ∧
    (∃ other ∈ inner, isFiller other = false) ∧ dir = String.ofList (join (outer ++ [part]))

theorem mem_ancestors {dir : String} {row : List (List Char)} :
    dir ∈ ancestors row ↔ ∃ part outer, part :: outer <:+ row ∧ isFiller part = false ∧
      dir = String.ofList (join (part :: outer).reverse) := by
  induction row with
  | nil => simp [ancestors]
  | cons first row ih =>
    simp only [List.suffix_cons_iff, or_and_right, exists_or, ← ih]
    by_cases hfirst : isFiller first <;> simp [ancestors, hfirst]

/-- The first of the ancestors is that of the first part that names something. -/
theorem tail_ancestors (row : List (List Char)) :
    (ancestors row).tail = ancestors (row.dropWhile isFiller).tail := by
  induction row with
  | nil => rfl
  | cons first row ih => by_cases hfirst : isFiller first <;> simp [ancestors, hfirst, ih]

theorem encloses_of_mem_parents {dir path : String} (h : dir ∈ parents path) :
    Encloses dir path := by
  rw [parents, tail_ancestors] at h
  obtain ⟨part, outer, ⟨inner, hrest⟩, hpart, hdir⟩ := mem_ancestors.mp h
  cases hnamed : (split path.toList).reverse.dropWhile isFiller with
  | nil => simp [hnamed] at hrest
  | cons first rest =>
    rw [hnamed, List.tail_cons] at hrest
    have hfirst : isFiller first = false := by
      have hhead := List.head_dropWhile_not isFiller (by rw [hnamed]; exact List.cons_ne_nil _ _)
      simpa [hnamed] using hhead
    obtain ⟨skipped, hrow⟩ :
        ∃ skipped, skipped ++ first :: (inner ++ part :: outer) = (split path.toList).reverse :=
      ⟨_, by rw [hrest, ← hnamed, List.takeWhile_append_dropWhile]⟩
    refine ⟨outer.reverse, part, (skipped ++ first :: inner).reverse, ?_, hpart,
      ⟨first, by simp, hfirst⟩, by rw [hdir, List.reverse_cons]⟩
    rw [← List.reverse_inj, ← hrow]
    simp

end Files

namespace FileTree

variable {t t' t'' : FileTree} {place next : Location} {path part : String} {parts : List String}

/-- Directories stay and nothing goes. What a file holds may change. -/
structure Keeps (t t' : FileTree) : Prop where
  working : t'.working = t.working
  dir : ∀ {place}, t.get? place = some .dir → t'.get? place = some .dir
  present : ∀ {place}, (t.get? place).isSome → (t'.get? place).isSome

theorem get?_insert_of_not_dir (e : Entry) (h : t.get? place ≠ some .dir) :
    (t.insert place e).get? place = some e := by
  refine get?_insert_self t e ?_
  rintro rfl
  exact h rfl

theorem keeps_insert (e : Entry) (h : t.get? place ≠ some .dir) : t.Keeps (t.insert place e) where
  working := rfl
  dir := by
    intro other hother
    have hne : other ≠ place := by
      rintro rfl
      exact h hother
    rwa [get?_insert_of_ne t e hne]
  present := by
    intro other hother
    by_cases hne : other = place
    · rw [hne, get?_insert_of_not_dir e h]
      rfl
    · rwa [get?_insert_of_ne t e hne]

theorem checkDir_eq_ok {u : Unit} : t.checkDir place = .ok u ↔ t.get? place = some .dir := by
  unfold checkDir
  split <;> simp_all

/-- Everything that can be entered from a directory. -/
theorem enter_eq_ok : t.enter place part = .ok next ↔ t.get? place = some .dir ∧
    (if part = "" ∨ part = "." then next = place
      else if part = ".." then next = place.dropLast
      else part.utf8ByteSize ≤ nameLimit ∧ (t.get? (place ++ [part])).isSome ∧
        next = place ++ [part]) := by
  rw [enter, bind_eq_ok]
  simp only [checkDir_eq_ok, exists_const]
  refine and_congr_right fun _ => ?_
  split_ifs with hfiller hup hlong hnone
  · exact ⟨fun h => (Except.ok.inj h).symm, fun h => congrArg Except.ok h.symm⟩
  · exact ⟨fun h => (Except.ok.inj h).symm, fun h => congrArg Except.ok h.symm⟩
  · simp [Nat.not_le.mpr hlong]
  · simp [Option.isNone_iff_eq_none.mp hnone]
  · refine ⟨fun h => ?_, fun ⟨_, _, h⟩ => congrArg Except.ok h.symm⟩
    exact ⟨Nat.not_lt.mp hlong, Option.isSome_iff_ne_none.mpr (by simpa using hnone),
      (Except.ok.inj h).symm⟩

theorem Keeps.enter (h : t.Keeps t') (hstep : t.enter place part = .ok next) :
    t'.enter place part = .ok next := by
  obtain ⟨hdir, hnext⟩ := enter_eq_ok.mp hstep
  refine enter_eq_ok.mpr ⟨h.dir hdir, ?_⟩
  split_ifs at hnext ⊢
  · exact hnext
  · exact hnext
  · exact ⟨hnext.1, h.present hnext.2.1, hnext.2.2⟩

theorem walk_cons_eq_ok : t.walk place (part :: parts) = .ok next ↔
    ∃ mid, t.enter place part = .ok mid ∧ t.walk mid parts = .ok next := by
  rw [walk, List.foldlM_cons]
  exact bind_eq_ok

theorem walk_append_eq_ok {more : List String} : t.walk place (parts ++ more) = .ok next ↔
    ∃ mid, t.walk place parts = .ok mid ∧ t.walk mid more = .ok next := by
  rw [walk, List.foldlM_append]
  exact bind_eq_ok

theorem Keeps.walk (h : t.Keeps t') (hwalk : t.walk place parts = .ok next) :
    t'.walk place parts = .ok next := by
  induction parts generalizing place with
  | nil => exact hwalk
  | cons part parts ih =>
    obtain ⟨mid, hstep, hrest⟩ := walk_cons_eq_ok.mp hwalk
    exact walk_cons_eq_ok.mpr ⟨mid, h.enter hstep, ih hrest⟩

/-- Slashes after a directory lead nowhere else. -/
theorem walk_replicate (hdir : t.get? place = some .dir) (k : Nat) :
    t.walk place (List.replicate k "") = .ok place := by
  induction k with
  | zero => rfl
  | succ k ih => exact walk_cons_eq_ok.mpr ⟨place, enter_eq_ok.mpr ⟨hdir, by simp⟩, ih⟩

theorem resolve_eq_ok : t.resolve path = .ok place ↔
    checkPath path = .ok () ∧ t.walk (t.origin path) (Files.parts path) = .ok place := by
  rw [resolve, bind_eq_ok]
  exact ⟨fun ⟨_, h⟩ => h, fun h => ⟨(), h⟩⟩

theorem Keeps.origin (h : t.Keeps t') (path : String) : t'.origin path = t.origin path := by
  rw [FileTree.origin, FileTree.origin, h.working]

theorem Keeps.resolve (h : t.Keeps t') (hplace : t.resolve path = .ok place) :
    t'.resolve path = .ok place := by
  obtain ⟨hcheck, hwalk⟩ := resolve_eq_ok.mp hplace
  exact resolve_eq_ok.mpr ⟨hcheck, h.origin path ▸ h.walk hwalk⟩

/-- The parts of a path up to the last one that is not empty. -/
def named (path : String) : List String := (Files.parts path).rdropWhile (· = "")

theorem parts_eq_named (path : String) :
    ∃ k, Files.parts path = named path ++ List.replicate k "" := by
  have hempty : ∀ part ∈ (Files.parts path).rtakeWhile (· = ""), part = "" := by
    intro part hpart
    simpa using List.mem_rtakeWhile_imp hpart
  refine ⟨((Files.parts path).rtakeWhile (· = "")).length, ?_⟩
  rw [named, ← List.eq_replicate_of_mem hempty]
  exact List.rdropWhile_append_rtakeWhile.symm

theorem target_eq_ok {x : Target} : t.target path = .ok x ↔ checkPath path = .ok () ∧
    t.walk (t.origin path) (named path).dropLast = .ok x.place ∧
      t.get? x.place = some .dir ∧ x.name = (named path).getLast?.getD "" ∧
        x.slashed = decide ((Files.parts path).getLast? = some "") := by
  rw [target, bind_eq_ok]
  simp only [bind_eq_ok, checkDir_eq_ok]
  constructor
  · rintro ⟨_, hcheck, place, hwalk, _, hdir, hx⟩
    cases hx
    exact ⟨hcheck, hwalk, hdir, rfl, rfl⟩
  · rintro ⟨hcheck, hwalk, hdir, hname, hslashed⟩
    refine ⟨(), hcheck, x.place, hwalk, (), hdir, ?_⟩
    obtain ⟨place, name, slashed⟩ := x
    cases hname
    cases hslashed
    rfl

theorem Keeps.target {x : Target} (h : t.Keeps t') (hx : t.target path = .ok x) :
    t'.target path = .ok x := by
  obtain ⟨hcheck, hwalk, hdir, hlast, hends⟩ := target_eq_ok.mp hx
  exact target_eq_ok.mpr ⟨hcheck, h.origin path ▸ h.walk hwalk, h.dir hdir, hlast, hends⟩

/-- After the last name of a path only slashes come. -/
theorem parts_of_target {x : Target} (hx : t.target path = .ok x) (hname : x.isName) :
    ∃ k, Files.parts path = (named path).dropLast ++ x.name :: List.replicate k "" ∧
      (0 < k → x.slashed = true) := by
  obtain ⟨-, -, -, hlast, hends⟩ := target_eq_ok.mp hx
  have hnamed : named path = (named path).dropLast ++ [x.name] := by
    cases hl : (named path).getLast? with
    | none =>
      rw [hl] at hlast
      simp [Target.isName, hlast] at hname
    | some last =>
      rw [hlast, hl]
      exact (List.dropLast_append_getLast? last hl).symm
  obtain ⟨k, hparts⟩ := parts_eq_named path
  refine ⟨k, by rw [hparts, hnamed]; simp, fun hk => ?_⟩
  rw [hends, hparts, List.getLast?_append, List.getLast?_replicate, if_neg hk.ne']
  rfl

/-- Where a path leads once something stands at its target. -/
theorem resolve_of_target {x : Target} (hx : t.target path = .ok x) (hname : x.isName)
    (hlength : x.name.utf8ByteSize ≤ nameLimit) (hthere : (t.get? x.location).isSome)
    (hslashed : x.slashed → t.get? x.location = some .dir) :
    t.resolve path = .ok x.location := by
  obtain ⟨hcheck, hwalk, hdir, -⟩ := target_eq_ok.mp hx
  obtain ⟨k, hparts, hends⟩ := parts_of_target hx hname
  obtain ⟨⟨hempty, hdot⟩, hdots⟩ : (x.name ≠ "" ∧ x.name ≠ ".") ∧ x.name ≠ ".." := by
    simpa [Target.isName] using hname
  have henter : t.enter x.place x.name = .ok x.location := by
    refine enter_eq_ok.mpr ⟨hdir, ?_⟩
    rw [if_neg (not_or.mpr ⟨hempty, hdot⟩), if_neg hdots]
    exact ⟨hlength, hthere, rfl⟩
  have hslashes : t.walk x.location (List.replicate k "") = .ok x.location := by
    rcases Nat.eq_zero_or_pos k with rfl | hk
    · rfl
    · exact walk_replicate (hslashed (hends hk)) k
  refine resolve_eq_ok.mpr ⟨hcheck, ?_⟩
  rw [hparts]
  exact walk_append_eq_ok.mpr ⟨x.place, hwalk, walk_cons_eq_ok.mpr ⟨x.location, henter, hslashes⟩⟩

theorem resolve_insert {x : Target} (e : Entry) (hx : t.target path = .ok x) (hname : x.isName)
    (hlength : x.name.utf8ByteSize ≤ nameLimit) (hfree : t.get? x.location ≠ some .dir)
    (hslashed : x.slashed → e = .dir) :
    (t.insert x.location e).resolve path = .ok x.location := by
  have hentry := get?_insert_of_not_dir e hfree
  refine resolve_of_target ((keeps_insert e hfree).target hx) hname hlength ?_ fun h => ?_
  · rw [hentry]
    rfl
  · rw [hentry, hslashed h]

theorem write_eq_ok {bytes : ByteArray} (h : t.write path bytes = .ok t') :
    ∃ place, t.get? place ≠ some .dir ∧ t' = t.insert place (.file bytes) ∧
      t'.resolve path = .ok place := by
  obtain ⟨x, hx, hwrite⟩ := bind_eq_ok.mp h
  split_ifs at hwrite with hname hlong hdir
  obtain ⟨hisName, hslashed⟩ : x.isName = true ∧ x.slashed = false := by simpa using hname
  have hfree : t.get? x.location ≠ some .dir := by
    intro h
    exact hdir (by rw [h]; rfl)
  obtain rfl : t.insert x.location (.file bytes) = t' := Except.ok.inj hwrite
  exact ⟨x.location, hfree, rfl,
    resolve_insert _ hx hisName (Nat.not_lt.mp hlong) hfree (by simp [hslashed])⟩

theorem makeDir_eq_ok (h : t.makeDir path = .ok t') :
    ∃ place, t.get? place = none ∧ t' = t.insert place .dir ∧ t'.resolve path = .ok place := by
  obtain ⟨x, hx, hmake⟩ := bind_eq_ok.mp h
  split_ifs at hmake with hname hlong hthere
  have hisName : x.isName = true := by simpa using hname
  have hnone : t.get? x.location = none := by simpa using hthere
  have hfree : t.get? x.location ≠ some .dir := by simp [hnone]
  obtain rfl : t.insert x.location .dir = t' := Except.ok.inj hmake
  exact ⟨x.location, hnone, rfl,
    resolve_insert _ hx hisName (Nat.not_lt.mp hlong) hfree fun _ => rfl⟩

/-- A place where nothing was, and where a directory now is that one of the paths leads to. -/
def NewDir (paths : String → Prop) (t t' : FileTree) (place : Location) : Prop :=
  t.get? place = none ∧ t'.get? place = some .dir ∧
    ∃ path, paths path ∧ t'.resolve path = .ok place

/-- The change of making directories to which the paths lead, and of nothing else. -/
structure Grown (paths : String → Prop) (t t' : FileTree) : Prop where
  working : t'.working = t.working
  entry : ∀ place, t'.get? place = t.get? place ∨ NewDir paths t t' place

variable {paths : String → Prop}

theorem Grown.refl (t : FileTree) : Grown paths t t := ⟨rfl, fun _ => .inl rfl⟩

theorem Grown.keeps (h : Grown paths t t') : t.Keeps t' where
  working := h.working
  dir := by
    intro place hdir
    rcases h.entry place with hsame | ⟨hnone, -⟩
    · rw [hsame, hdir]
    · rw [hnone] at hdir
      cases hdir
  present := by
    intro place hthere
    rcases h.entry place with hsame | ⟨-, hdir, -⟩
    · rwa [hsame]
    · rw [hdir]
      rfl

theorem NewDir.keeps (h : NewDir paths t t' place) (h' : t'.Keeps t'') :
    NewDir paths t t'' place := by
  obtain ⟨hnone, hdir, path, hpath, hplace⟩ := h
  exact ⟨hnone, h'.dir hdir, path, hpath, h'.resolve hplace⟩

theorem Grown.trans (h : Grown paths t t') (h' : Grown paths t' t'') : Grown paths t t'' where
  working := h'.working.trans h.working
  entry place := by
    rcases h.entry place with hsame | hnew
    · rcases h'.entry place with hsame' | ⟨hnone, hdir, hpath⟩
      · exact .inl (hsame'.trans hsame)
      · exact .inr ⟨hsame ▸ hnone, hdir, hpath⟩
    · exact .inr (hnew.keeps h'.keeps)

theorem grown_of_makeDir (hpath : paths path) (h : t.makeDir path = .ok t') :
    Grown paths t t' := by
  obtain ⟨place, hnone, rfl, hplace⟩ := makeDir_eq_ok h
  refine ⟨rfl, fun other => ?_⟩
  by_cases hother : other = place
  · subst hother
    have hfree : t.get? other ≠ some .dir := by simp [hnone]
    exact .inr ⟨hnone, get?_insert_of_not_dir .dir hfree, path, hpath, hplace⟩
  · exact .inl (get?_insert_of_ne t .dir hother)

theorem run_bind_of {α β : Type} {x : StateM FileTree α} {f : α → StateM FileTree β} {a : α}
    (h : x.run t = (a, t')) : (x >>= f).run t = (f a).run t' := by
  rw [StateT.run_bind, h]
  rfl

variable {change : FileTree → Except FileError FileTree} {e : FileError}

theorem run_commit_of_ok (h : change t = .ok t') : (commit change).run t = (.ok (), t') := by
  simp only [StateT.run, commit, h]

theorem run_commit_of_error (h : change t = .error e) : (commit change).run t = (.error e, t) := by
  simp only [StateT.run, commit, h]

/-- The action makes directories to which the paths lead, and changes nothing else. -/
def Grows {α : Type} (paths : String → Prop) (x : StateM FileTree α) : Prop :=
  ∀ t, Grown paths t (x.run t).2

theorem grows_pure {α : Type} (a : α) : Grows paths (pure a) := fun t => Grown.refl t

theorem Grows.bind {α β : Type} {x : StateM FileTree α} {f : α → StateM FileTree β}
    (hx : Grows paths x) (hf : ∀ a, Grows paths (f a)) : Grows paths (x >>= f) :=
  fun t => (hx t).trans (hf _ _)

theorem grows_isDir (path : String) :
    Grows paths (Storage.isDir path : StateM FileTree Bool) := fun t => Grown.refl t

theorem grows_makeDir (hpath : paths path) :
    Grows paths (Storage.makeDir path : StateM FileTree (Except FileError Unit)) := by
  intro t
  change Grown paths t ((commit (·.makeDir path)).run t).2
  cases hmake : t.makeDir path with
  | error e =>
    rw [run_commit_of_error hmake]
    exact Grown.refl t
  | ok t' =>
    rw [run_commit_of_ok hmake]
    exact grown_of_makeDir hpath hmake

theorem grows_makeDirs {dirs : List String} (hdirs : ∀ dir ∈ dirs, paths dir) :
    Grows paths (Files.makeDirs dirs : StateM FileTree (Except FileError Unit)) := by
  induction dirs with
  | nil => exact grows_pure _
  | cons dir outer ih =>
    have hmake := grows_makeDir (hdirs dir List.mem_cons_self)
    have houter := ih fun d hd => hdirs d (List.mem_cons_of_mem _ hd)
    refine hmake.bind fun made => ?_
    split
    · exact grows_pure _
    · refine houter.bind fun made => ?_
      split
      · exact grows_pure _
      · refine hmake.bind fun made => ?_
        split
        · exact grows_pure _
        · exact (grows_isDir dir).bind fun _ => grows_pure _
    · exact (grows_isDir dir).bind fun _ => grows_pure _

end FileTree

end TeenyToC
