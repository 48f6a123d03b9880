import TeenyToC.Proofs.OutputFiles

/-! Writing a file again. A path that leads somewhere has nothing made at its end
(`makeDir_of_resolve`), so the directories that were made on the way to a file stay as they are
(`run_makeDirs_again`), and the file is replaced by itself (`write_again`). All other files hold
what they held before (`Replaced.read_of_ne`). -/

namespace TeenyToC

namespace FileTree
variable {t t₁ t' : FileTree} {place : Location} {path dir text : String} {bytes : ByteArray}
  {dirs outer : List String}

theorem insert_insert (t : FileTree) (place : Location) (e e' : Entry) :
    (t.insert place e).insert place e' = t.insert place e' := by
  simp [insert]

theorem write_again (h : t.write path bytes = .ok t') : t'.write path bytes = .ok t' := by
  obtain ⟨x, hx, hwrite⟩ := bind_eq_ok.mp h
  split_ifs at hwrite with hname hlong hdir
  have hfree : t.get? x.location ≠ some .dir := by
    intro h
    exact hdir (by rw [h]; rfl)
  obtain rfl : t.insert x.location (.file bytes) = t' := Except.ok.inj hwrite
  refine bind_eq_ok.mpr ⟨x, (keeps_insert _ hfree).target hx, ?_⟩
  have hfile : ¬((t.insert x.location (.file bytes)).get? x.location).any Entry.isDir := by
    rw [get?_insert_of_not_dir _ hfree]
    exact Bool.false_ne_true
  rw [if_neg hname, if_neg hlong, if_neg hfile, insert_insert]
  rfl

theorem parts_ne_nil (path : String) : Files.parts path ≠ [] := by
  have hlength := Files.length_split path.toList
  rw [Files.parts, Ne, List.map_eq_nil_iff, ← List.length_eq_zero_iff]
  omega

/-- Where a path that leads somewhere would have something made. -/
theorem target_of_resolve (h : t.resolve path = .ok place) : ∃ x, t.target path = .ok x ∧
    (x.isName → x.name.utf8ByteSize ≤ nameLimit ∧ (t.get? x.location).isSome) := by
  obtain ⟨hcheck, hwalk⟩ := resolve_eq_ok.mp h
  obtain ⟨k, hparts⟩ := parts_eq_named path
  rw [hparts] at hwalk
  obtain ⟨mid, hnamed, hslashes⟩ := walk_append_eq_ok.mp hwalk
  rcases List.eq_nil_or_concat (named path) with hnil | ⟨front, last, hlast⟩
  · -- Nothing but slashes, which lead from a directory to itself.
    have hdir : t.get? (t.origin path) = some .dir := by
      rw [hnil] at hparts hnamed
      obtain rfl : t.origin path = mid := Except.ok.inj hnamed
      cases k with
      | zero => exact absurd hparts (parts_ne_nil path)
      | succ k =>
        obtain ⟨_, hstep, -⟩ := walk_cons_eq_ok.mp hslashes
        exact (enter_eq_ok.mp hstep).1
    refine ⟨⟨t.origin path, "", _⟩, target_eq_ok.mpr ⟨hcheck, ?_, hdir, ?_, rfl⟩, nofun⟩
    · rw [hnil]
      rfl
    · rw [hnil]
      rfl
  · rw [List.concat_eq_append] at hlast
    rw [hlast] at hnamed
    obtain ⟨inside, hfront, hstep⟩ := walk_append_eq_ok.mp hnamed
    obtain ⟨next, henter, -⟩ := walk_cons_eq_ok.mp hstep
    obtain ⟨hdir, hnext⟩ := enter_eq_ok.mp henter
    refine ⟨⟨inside, last, _⟩, target_eq_ok.mpr ⟨hcheck, ?_, hdir, ?_, rfl⟩, fun hname => ?_⟩
    · rwa [hlast, List.dropLast_concat]
    · rw [hlast, List.getLast?_concat]
      rfl
    · obtain ⟨⟨hempty, hdot⟩, hdots⟩ : (last ≠ "" ∧ last ≠ ".") ∧ last ≠ ".." := by
        simpa [Target.isName] using hname
      rw [if_neg (not_or.mpr ⟨hempty, hdot⟩), if_neg hdots] at hnext
      exact ⟨hnext.1, hnext.2.1⟩

theorem makeDir_of_resolve (h : t.resolve path = .ok place) :
    t.makeDir path = .error .alreadyExists := by
  obtain ⟨x, hx, hthere⟩ := target_of_resolve h
  rw [makeDir, hx]
  by_cases hname : x.isName
  · obtain ⟨hlength, hsome⟩ := hthere hname
    simp only [bind, Except.bind, hname, Nat.not_lt.mpr hlength, hsome]
    rfl
  · simp only [bind, Except.bind, hname]
    rfl

theorem isDir_eq_true :
    t.isDir path = true ↔ ∃ place, t.resolve path = .ok place ∧ t.get? place = some .dir := by
  unfold isDir
  cases t.resolve path with
  | error e => simp
  | ok place =>
    rcases hentry : t.get? place with _ | (_ | bytes) <;> simp [hentry, Entry.isDir]

theorem Keeps.isDir (h : t.Keeps t') (hdir : t.isDir path = true) : t'.isDir path = true := by
  obtain ⟨place, hplace, hentry⟩ := isDir_eq_true.mp hdir
  exact isDir_eq_true.mpr ⟨place, h.resolve hplace, h.dir hentry⟩

theorem isDir_of_makeDir (h : t.makeDir dir = .ok t') : t'.isDir dir = true := by
  obtain ⟨place, hnone, rfl, hplace⟩ := makeDir_eq_ok h
  exact isDir_eq_true.mpr ⟨place, hplace, get?_insert_of_not_dir .dir (by simp [hnone])⟩

theorem run_isDir (t : FileTree) (path : String) :
    (Storage.isDir path : StateM FileTree Bool).run t = (t.isDir path, t) := rfl

theorem run_makeDir_of_ok (h : t.makeDir dir = .ok t') :
    (Storage.makeDir dir : StateM FileTree _).run t = (.ok (), t') := run_commit_of_ok h

theorem run_makeDir_of_error {e : FileError} (h : t.makeDir dir = .error e) :
    (Storage.makeDir dir : StateM FileTree _).run t = (.error e, t) := run_commit_of_error h

/-- A directory that cannot be made may be there. -/
theorem isDir_of_fallback {e : FileError}
    (h : (do return if ← Storage.isDir dir then .ok () else .error e :
      StateM FileTree (Except FileError Unit)).run t = (.ok (), t')) : t'.isDir dir = true := by
  rw [run_bind_of (run_isDir t dir)] at h
  obtain ⟨hresult, rfl⟩ := Prod.mk.inj h
  by_contra hdir
  rw [if_neg hdir] at hresult
  cases hresult

/-- The directory is there once those it lies in have been made with it. -/
theorem isDir_of_makeDirs
    (h : (Files.makeDirs (dir :: outer) : StateM FileTree _).run t = (.ok (), t')) :
    t'.isDir dir = true := by
  rw [Files.makeDirs] at h
  cases hmake : t.makeDir dir with
  | ok t₁ =>
    rw [run_bind_of (run_makeDir_of_ok hmake)] at h
    obtain ⟨-, rfl⟩ := Prod.mk.inj h
    exact isDir_of_makeDir hmake
  | error e =>
    rw [run_bind_of (run_makeDir_of_error hmake)] at h
    cases e with
    | notFound =>
      -- It lies in a directory that has to be made first, and is tried once more then.
      rcases houter : (Files.makeDirs outer : StateM FileTree _).run t with ⟨_ | _, t₁⟩
      · dsimp only at h
        rw [run_bind_of houter] at h
        cases h
      · dsimp only at h
        rw [run_bind_of houter] at h
        cases hmake' : t₁.makeDir dir with
        | ok t₂ =>
          dsimp only at h
          rw [run_bind_of (run_makeDir_of_ok hmake')] at h
          obtain ⟨-, rfl⟩ := Prod.mk.inj h
          exact isDir_of_makeDir hmake'
        | error e =>
          dsimp only at h
          rw [run_bind_of (run_makeDir_of_error hmake')] at h
          exact isDir_of_fallback h
    | _ => exact isDir_of_fallback h

theorem run_makeDirs_of_isDir (h : t.isDir dir = true) :
    (Files.makeDirs (dir :: outer) : StateM FileTree _).run t = (.ok (), t) := by
  obtain ⟨place, hplace, -⟩ := isDir_eq_true.mp h
  rw [Files.makeDirs, run_bind_of (run_makeDir_of_error (makeDir_of_resolve hplace)),
    run_bind_of (run_isDir t dir), h]
  rfl

/-- Directories that have been made and are still there are not made again. -/
theorem run_makeDirs_again (h : (Files.makeDirs dirs : StateM FileTree _).run t = (.ok (), t₁))
    (hkeeps : t₁.Keeps t') : (Files.makeDirs dirs : StateM FileTree _).run t' = (.ok (), t') := by
  cases dirs with
  | nil => rfl
  | cons dir outer => exact run_makeDirs_of_isDir (hkeeps.isDir (isDir_of_makeDirs h))

theorem run_commit_eq_ok {change : FileTree → Except FileError FileTree} :
    (commit change).run t = (.ok (), t') ↔ change t = .ok t' := by
  cases h : change t with
  | error e =>
    rw [run_commit_of_error h]
    exact ⟨nofun, nofun⟩
  | ok t₁ =>
    rw [run_commit_of_ok h]
    exact ⟨fun h => congrArg Except.ok (Prod.mk.inj h).2, fun h => by rw [Except.ok.inj h]⟩

theorem run_writeText_eq_ok : (Files.writeText path text : StateM FileTree _).run t = (.ok (), t') ↔
    ∃ t₁, (Files.makeDirs (Files.parents path) : StateM FileTree _).run t = (.ok (), t₁) ∧
      t₁.write path text.toUTF8 = .ok t' := by
  rcases hmade : (Files.makeDirs (Files.parents path) : StateM FileTree _).run t with ⟨made, t₁⟩
  rw [Files.writeText, run_bind_of hmade]
  cases made with
  | error e =>
    constructor
    · intro h
      cases h
    · rintro ⟨_, ⟨⟩, -⟩
  | ok _ =>
    constructor
    · exact fun h => ⟨t₁, rfl, run_commit_eq_ok.mp h⟩
    · rintro ⟨_, ⟨⟩, h⟩
      exact run_commit_eq_ok.mpr h

theorem replaced_of_writeText
    (h : (Files.writeText path text : StateM FileTree _).run t = (.ok (), t')) :
    Replaced path text.toUTF8 t t' := by
  rcases run_writeText t path text with ⟨t₁, hrun, hreplaced⟩ | ⟨e, t₁, hrun, -⟩
  · rw [hrun] at h
    cases h
    exact hreplaced
  · rw [hrun] at h
    cases h

theorem run_writeText_again
    (h : (Files.writeText path text : StateM FileTree _).run t = (.ok (), t')) :
    (Files.writeText path text : StateM FileTree _).run t' = (.ok (), t') := by
  obtain ⟨t₁, hmade, hwrite⟩ := run_writeText_eq_ok.mp h
  obtain ⟨place, hfree, rfl, -⟩ := write_eq_ok hwrite
  exact run_writeText_eq_ok.mpr
    ⟨_, run_makeDirs_again hmade (keeps_insert _ hfree), write_again hwrite⟩

theorem Replaced.keeps (h : Replaced path bytes t t') : t.Keeps t' where
  working := h.working
  dir := by
    intro other hother
    obtain ⟨place, -, -, hfree, hrest⟩ := h.entry
    have hne : other ≠ place := by
      rintro rfl
      exact hfree hother
    rcases hrest other hne with hsame | ⟨hnone, -⟩
    · rwa [hsame]
    · rw [hnone] at hother
      cases hother
  present := by
    intro other hother
    obtain ⟨place, -, hfile, -, hrest⟩ := h.entry
    by_cases hne : other = place
    · rw [hne, hfile]
      rfl
    · rcases hrest other hne with hsame | ⟨-, hdir, -⟩
      · rwa [hsame]
      · rw [hdir]
        rfl

theorem read_eq_ok : t.read path = .ok bytes ↔
    ∃ place, t.resolve path = .ok place ∧ t.get? place = some (.file bytes) := by
  rw [FileTree.read, bind_eq_ok]
  refine exists_congr fun place => and_congr_right fun _ => ?_
  rcases hentry : t.get? place with _ | (_ | held)
  · exact ⟨nofun, nofun⟩
  · exact ⟨nofun, nofun⟩
  · exact ⟨fun h => by rw [Except.ok.inj h], fun h => by cases h; rfl⟩

/-- A file that is not the one replaced holds what it held. -/
theorem Replaced.read_of_ne {input : String} {held : ByteArray} (h : Replaced path bytes t t')
    (hread : t.read input = .ok held) (hne : t'.resolve path ≠ t'.resolve input) :
    t'.read input = .ok held := by
  obtain ⟨place, hplace, hentry⟩ := read_eq_ok.mp hread
  obtain ⟨output, houtput, -, -, hrest⟩ := h.entry
  have hplace' := h.keeps.resolve hplace
  have hother : place ≠ output := by
    rintro rfl
    exact hne (houtput.trans hplace'.symm)
  have hsame : t'.get? place = t.get? place := by
    refine (hrest place hother).resolve_right fun hnew => ?_
    rw [hnew.1] at hentry
    cases hentry
  exact read_eq_ok.mpr ⟨place, hplace', hsame.trans hentry⟩

end FileTree

end TeenyToC
