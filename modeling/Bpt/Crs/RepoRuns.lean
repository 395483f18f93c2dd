-- SUMMARY: When the package directories of a repository are those of its database, over all runs of its operations.
import Bpt.Base.Reach
import Bpt.Crs.Repo

/-!
# The directories and the rows of a repository

An import that fails after it has created its directory leaves it there, or an
archive, and a removal deletes the one directory of its own id. Each operation
that does neither to a package of another state keeps directories and rows equal.
-/

namespace Bpt.Crs

open Transaction Keyed

/-! ## Directories -/

/-- The directory has an archive and metadata. -/
def PkgDir.Complete (d : PkgDir) : Prop := d.tgz = .file ∧ d.json = true

theorem createDir_of_mem {path : String × String} {dirs : List PkgDir}
    (h : ∃ d ∈ dirs, d.path = path) : createDir path dirs = dirs := by
  obtain ⟨d, hd, hpath⟩ := h
  exact if_pos (List.any_eq_true.mpr ⟨d, hd, by simpa using hpath⟩)

theorem createDir_of_not_mem {path : String × String} {dirs : List PkgDir}
    (h : ∀ d ∈ dirs, d.path ≠ path) : createDir path dirs = dirs ++ [{ path := path }] := by
  apply if_neg
  intro hany
  obtain ⟨d, hd, hpath⟩ := List.any_eq_true.mp hany
  exact h d hd (by simpa using hpath)

theorem exists_mem_createDir (path : String × String) (dirs : List PkgDir) :
    ∃ d ∈ createDir path dirs, d.path = path := by
  by_cases h : ∃ d ∈ dirs, d.path = path
  · rwa [createDir_of_mem h]
  · rw [createDir_of_not_mem fun d hd hpath => h ⟨d, hd, hpath⟩]
    exact ⟨{ path := path }, by simp, rfl⟩

theorem updateDir_append_singleton {path : String × String} {dirs : List PkgDir} {d : PkgDir}
    (h : ∀ d ∈ dirs, d.path ≠ path) (hd : d.path = path) (f : PkgDir → PkgDir) :
    updateDir path f (dirs ++ [d]) = dirs ++ [f d] := by
  have hdirs : dirs.map (fun d => if d.path = path then f d else d) = dirs := by
    conv_rhs => rw [← List.map_id dirs]
    exact List.map_congr_left fun d hmem => if_neg (h d hmem)
  unfold updateDir
  rw [List.map_append, hdirs, List.map_singleton, if_pos hd]

theorem exists_mem_updateDir {path path' : String × String} {f : PkgDir → PkgDir}
    {dirs : List PkgDir} (hf : ∀ d, (f d).path = d.path) (h : ∃ d ∈ dirs, d.path = path') :
    ∃ d ∈ updateDir path f dirs, d.path = path' := by
  obtain ⟨d, hd, hpath⟩ := h
  refine ⟨_, List.mem_map_of_mem hd, ?_⟩
  split
  next => rw [hf, hpath]
  next => exact hpath

/-! ## Statements -/

theorem exec_check_bind (io : RepoIo) (step : RepoStep) {α : Type} (x : RepoAction α) (s : Repo) :
    exec (check io step >>= fun _ => x) s =
      if io.fails step then (.error (.io step), s) else exec x s := by
  rw [exec_bind]
  unfold check
  cases io.fails step with
  | true => rfl
  | false => rfl

/-- Compressing the database changes the index only. -/
theorem exec_vacuumAndCompress (io : RepoIo) (s : Repo) :
    ∃ index, (exec (vacuumAndCompress io) s).2 = { s with index := index } := by
  unfold vacuumAndCompress
  rw [exec_check_bind]
  split
  next => exact ⟨s.index, rfl⟩
  next =>
    split
    next => exact ⟨none, rfl⟩
    next => exact ⟨some s.db, rfl⟩

/-- The import transaction commits. -/
structure Stores (io : RepoIo) (json : Json) (destDir : String × String) (s : Repo) : Prop where
  insert : io.fails .insert = false
  absent : ∀ row ∈ s.db.rows, row.columns ≠ packageColumns json
  moved : io.renames = true ∨ io.fails .copyArchive = false
  copyJson : io.fails .copyJson = false
  noJson : ∀ d ∈ s.dirs, d.path = destDir → d.json = false
  commit : io.fails .commit = false

/-- What the transaction makes of the repository when it commits. -/
def stored (io : RepoIo) (json : Json) (tmpTgz : String) (destDir : String × String) (s : Repo) :
    Repo :=
  ((s.addRow json).moveTgz tmpTgz destDir (if io.renames then .file else .directory)).addJson destDir

/-- A failed transaction leaves the rows, and the directories where they are. When
the package is present nothing is moved. -/
structure RolledBack (json : Json) (s s' : Repo) : Prop where
  db : s'.db = s.db
  dirs : ∀ path, (∃ d ∈ s.dirs, d.path = path) → ∃ d ∈ s'.dirs, d.path = path
  archives : (∃ row ∈ s.db.rows, row.columns = packageColumns json) → s'.archives = s.archives

theorem exec_dbTransaction (x : RepoAction Unit) (s : Repo) :
    exec (dbTransaction x) s = match exec x s with
      | (.ok (), s') => (.ok (), s')
      | (.error e, s') => (.error e, { s' with db := s.db }) := rfl

theorem exec_insertPackage (io : RepoIo) (json : Json) (s : Repo) :
    (io.fails .insert = false ∧ (∀ row ∈ s.db.rows, row.columns ≠ packageColumns json) ∧
      exec (insertPackage io json) s = (.ok (), s.addRow json)) ∨
    ((io.fails .insert = true ∨ ∃ row ∈ s.db.rows, row.columns = packageColumns json) ∧
      ∃ e, exec (insertPackage io json) s = (.error e, s)) := by
  unfold insertPackage
  rw [exec_check_bind]
  cases hinsert : io.fails .insert with
  | true => exact .inr ⟨.inl rfl, _, rfl⟩
  | false =>
      rw [if_neg Bool.false_ne_true, exec_bind, exec_get]
      dsimp only
      by_cases hany : (s.db.rows.any fun row => row.columns = packageColumns json) = true
      · rw [if_pos hany]
        obtain ⟨row, hrow, hcolumns⟩ := List.any_eq_true.mp hany
        exact .inr ⟨.inr ⟨row, hrow, by simpa using hcolumns⟩, _, rfl⟩
      · rw [if_neg hany]
        refine .inl ⟨rfl, fun row hrow hcolumns => hany ?_, rfl⟩
        exact List.any_eq_true.mpr ⟨row, hrow, by simpa using hcolumns⟩

theorem exec_moveArchive (io : RepoIo) (tmpTgz : String) (destDir : String × String) (s : Repo) :
    ((io.renames = true ∨ io.fails .copyArchive = false) ∧
      exec (moveArchive io tmpTgz destDir) s =
        (.ok (), s.moveTgz tmpTgz destDir (if io.renames then .file else .directory))) ∨
    (¬ (io.renames = true ∨ io.fails .copyArchive = false) ∧
      ∃ e, exec (moveArchive io tmpTgz destDir) s = (.error e, s)) := by
  unfold moveArchive
  cases hrenames : io.renames with
  | true => exact .inl ⟨.inl rfl, rfl⟩
  | false =>
      rw [if_neg Bool.false_ne_true, exec_check_bind]
      cases hcopy : io.fails .copyArchive with
      | false => exact .inl ⟨.inr rfl, rfl⟩
      | true => exact .inr ⟨by simp, _, rfl⟩

theorem exec_copyJson (io : RepoIo) (destDir : String × String) (s : Repo) :
    ((io.fails .copyJson = false ∧ ∀ d ∈ s.dirs, d.path = destDir → d.json = false) ∧
      exec (copyJson io destDir) s = (.ok (), s.addJson destDir)) ∨
    (¬ (io.fails .copyJson = false ∧ ∀ d ∈ s.dirs, d.path = destDir → d.json = false) ∧
      ∃ e, exec (copyJson io destDir) s = (.error e, s)) := by
  unfold copyJson
  rw [exec_check_bind]
  cases hcopy : io.fails .copyJson with
  | true => exact .inr ⟨by simp, _, rfl⟩
  | false =>
      rw [if_neg Bool.false_ne_true, exec_bind, exec_get]
      dsimp only
      by_cases hany : (s.dirs.any fun d => d.path = destDir && d.json) = true
      · rw [if_pos hany]
        obtain ⟨d, hd, hboth⟩ := List.any_eq_true.mp hany
        simp only [Bool.and_eq_true, decide_eq_true_eq] at hboth
        refine .inr ⟨fun h => ?_, _, rfl⟩
        have hnone := h.2 d hd hboth.1
        rw [hboth.2] at hnone
        cases hnone
      · rw [if_neg hany]
        refine .inl ⟨⟨rfl, fun d hd hpath => ?_⟩, rfl⟩
        by_contra hjson
        exact hany (List.any_eq_true.mpr ⟨d, hd, by simp [hpath, hjson]⟩)

/-- Moving the archive leaves the metadata where it is. -/
theorem forall_json_moveTgz {tmpTgz : String} {path : String × String} {tgz : TgzEntry} {s : Repo} :
    (∀ d ∈ (s.moveTgz tmpTgz path tgz).dirs, d.path = path → d.json = false) ↔
      ∀ d ∈ s.dirs, d.path = path → d.json = false := by
  unfold Repo.moveTgz updateDir
  rw [List.forall_mem_map]
  constructor
  · intro h d hd hpath
    have := h d hd
    rw [if_pos hpath] at this
    exact this hpath
  · intro h d hd hpath
    split at hpath
    next hd' =>
      rw [if_pos hd']
      exact h d hd hd'
    next hd' => exact absurd hpath hd'

theorem exec_storePackage (io : RepoIo) (json : Json) (tmpTgz : String)
    (destDir : String × String) (s : Repo) :
    (Stores io json destDir s ∧
      exec (storePackage io json tmpTgz destDir) s = (.ok (), stored io json tmpTgz destDir s)) ∨
    (¬ Stores io json destDir s ∧ ∃ e s',
      exec (storePackage io json tmpTgz destDir) s = (.error e, s') ∧ RolledBack json s s') := by
  unfold storePackage
  rw [exec_dbTransaction, exec_bind]
  rcases exec_insertPackage io json s with ⟨hinsert, habsent, hexec⟩ | ⟨hfails, e, hexec⟩
  · rw [hexec]
    have hpresent : ¬ ∃ row ∈ s.db.rows, row.columns = packageColumns json := by
      rintro ⟨row, hrow, hcolumns⟩
      exact habsent row hrow hcolumns
    dsimp only
    rw [exec_bind]
    rcases exec_moveArchive io tmpTgz destDir (s.addRow json) with ⟨hmoved, hexec⟩ | ⟨hmoved, e, hexec⟩
    · rw [hexec]
      dsimp only
      rw [exec_bind]
      rcases exec_copyJson io destDir ((s.addRow json).moveTgz tmpTgz destDir
          (if io.renames then .file else .directory)) with
        ⟨⟨hcopy, hnoJson⟩, hexec⟩ | ⟨hcopy, e, hexec⟩
      · rw [hexec]
        have hnoJson := forall_json_moveTgz.mp hnoJson
        dsimp only
        unfold check
        cases hcommit : io.fails .commit with
        | false => exact .inl ⟨⟨hinsert, habsent, hmoved, hcopy, hnoJson, hcommit⟩, rfl⟩
        | true =>
            refine .inr ⟨fun h => ?_, _, _, rfl, rfl, fun path h => ?_, fun h => absurd h hpresent⟩
            · exact absurd (h.commit.symm.trans hcommit) (by simp)
            · exact exists_mem_updateDir (fun _ => rfl) (exists_mem_updateDir (fun _ => rfl) h)
      · rw [hexec]
        refine .inr ⟨fun h => hcopy ⟨h.copyJson, forall_json_moveTgz.mpr h.noJson⟩, _, _, rfl, rfl,
          fun path h => ?_, fun h => absurd h hpresent⟩
        exact exists_mem_updateDir (fun _ => rfl) h
    · rw [hexec]
      exact .inr ⟨fun h => hmoved h.moved, _, _, rfl, rfl, fun _ h => h,
        fun h => absurd h hpresent⟩
  · rw [hexec]
    refine .inr ⟨fun hstores => ?_, _, _, rfl, rfl, fun _ h => h, fun _ => rfl⟩
    rcases hfails with hfails | ⟨row, hrow, hcolumns⟩
    · exact absurd (hstores.insert.symm.trans hfails) (by simp)
    · exact hstores.absent row hrow hcolumns

/-! ## Packages -/

section

variable {V S : Type} [Semver V] [VersionRangeSet S V]

omit [VersionRangeSet S V] in
theorem subdirOf_injective : Function.Injective (subdirOf : PkgId V → String × String) := by
  intro id id' h
  simp only [subdirOf, Prod.mk.injEq] at h
  obtain ⟨hversion, hrevision⟩ := tilde_intRepr_injective h.2
  have hname := Name.str_injective h.1
  have hversion := Semver.toStr_injective hversion
  cases id
  cases id'
  simp_all

/-- The generated columns of a package of the id. -/
def PkgId.columns (id : PkgId V) : Option String × Option String × Option ℚ :=
  (some id.name.str, some (Semver.toStr id.version), some (id.revision : ℚ))

omit [VersionRangeSet S V] in
theorem PkgId.columns_injective : Function.Injective (columns : PkgId V → _) := by
  intro id id' h
  simp only [columns, Prod.mk.injEq, Option.some.injEq, Rat.intCast_inj] at h
  have hname := Name.str_injective h.1
  have hversion := Semver.toStr_injective h.2.1
  cases id
  cases id'
  simp_all

/-- The repository has a row of the id. -/
def Repo.Has (s : Repo) (id : PkgId V) : Prop := ∃ row ∈ s.db.rows, row.columns = id.columns

/-- The import fails before it writes an archive. -/
def FailsEarly (io : RepoIo) (pkg : PackageInfo V S) : Prop :=
  io.fails .prepare = true ∨ pkg.toJson = none ∨
    io.fails .compressTgz = true ∧ io.leavesFile = false

/-- The import reaches its transaction. -/
def Archives (io : RepoIo) (pkg : PackageInfo V S) : Prop :=
  io.fails .compressTgz = false ∧ 1 ≤ pkg.id.revision ∧ io.fails .beginTransaction = false

theorem exec_compressTgz_early {io : RepoIo} (hfails : io.fails .compressTgz = true)
    (hleaves : io.leavesFile = false) (tmpTgz : String) (s : Repo) :
    exec (compressTgz io tmpTgz) s = (.error (.io .compressTgz), s) := by
  unfold compressTgz
  rw [hfails, hleaves]
  rfl

/-- Unless it fails and leaves nothing, the compression leaves an archive. -/
theorem exec_compressTgz {io : RepoIo}
    (h : io.fails .compressTgz = true → io.leavesFile = true) (tmpTgz : String) (s : Repo) :
    exec (compressTgz io tmpTgz) s =
      (if io.fails .compressTgz then .error (.io .compressTgz) else .ok (), s.withArchive tmpTgz) := by
  unfold compressTgz
  cases hfails : io.fails .compressTgz with
  | true =>
      rw [h hfails]
      rfl
  | false => rfl

theorem exec_importDir_early {io : RepoIo} {pkg : PackageInfo V S} {tmpTgz : String} {s : Repo}
    (hdir : io.fails .createDirectories = false) (hearly : FailsEarly io pkg) :
    (exec (importDir io (some pkg) tmpTgz) s).2 = s.withDir (subdirOf pkg.id) := by
  unfold importDir
  dsimp only
  rw [exec_check_bind, hdir, if_neg Bool.false_ne_true, exec_bind, exec_modify]
  dsimp only
  rw [exec_check_bind]
  cases hprepare : io.fails .prepare with
  | true => rfl
  | false =>
      rw [if_neg Bool.false_ne_true]
      cases hjson : pkg.toJson with
      | none => rfl
      | some json =>
          rcases hearly with hfails | hnone | ⟨hfails, hleaves⟩
          · exact absurd (hfails.symm.trans hprepare) (by simp)
          · exact absurd (hnone.symm.trans hjson) (by simp)
          · dsimp only
            rw [exec_bind, exec_compressTgz_early hfails hleaves]

/-- Past its archive, an import leaves it or runs its transaction. -/
theorem exec_importDir_archives {io : RepoIo} {pkg : PackageInfo V S} (tmpTgz : String) (s : Repo)
    (hdir : io.fails .createDirectories = false) (hearly : ¬ FailsEarly io pkg) :
    ∃ json index, pkg.toJson = some json ∧
      ((¬ Archives io pkg ∧ (exec (importDir io (some pkg) tmpTgz) s).2 =
          (s.withDir (subdirOf pkg.id)).withArchive tmpTgz) ∨
        (Archives io pkg ∧ (exec (importDir io (some pkg) tmpTgz) s).2 =
          { (exec (storePackage io json tmpTgz (subdirOf pkg.id))
              ((s.withDir (subdirOf pkg.id)).withArchive tmpTgz)).2 with index := index })) := by
  simp only [FailsEarly, not_or, Bool.not_eq_true, not_and, Bool.not_eq_false] at hearly
  obtain ⟨hprepare, hjson, hleaves⟩ := hearly
  cases hjson' : pkg.toJson with
  | none => exact absurd hjson' hjson
  | some json =>
      unfold importDir Archives
      dsimp only
      rw [exec_check_bind, hdir, if_neg Bool.false_ne_true, exec_bind, exec_modify]
      dsimp only
      rw [exec_check_bind, hprepare, if_neg Bool.false_ne_true, hjson']
      dsimp only
      rw [exec_bind, exec_compressTgz hleaves]
      cases hcompress : io.fails .compressTgz with
      | true => exact ⟨json, none, rfl, .inl ⟨by simp, rfl⟩⟩
      | false =>
          rw [if_neg Bool.false_ne_true]
          dsimp only
          rw [exec_bind, checkRevision]
          by_cases hrevision : pkg.id.revision < 1
          · rw [if_pos hrevision]
            exact ⟨json, none, rfl, .inl ⟨by omega, rfl⟩⟩
          · rw [if_neg hrevision, exec_pure]
            dsimp only
            rw [exec_check_bind]
            cases hbegin : io.fails .beginTransaction with
            | true => exact ⟨json, none, rfl, .inl ⟨by simp, rfl⟩⟩
            | false =>
                rw [if_neg Bool.false_ne_true, exec_bind]
                cases hstore : exec (storePackage io json tmpTgz (subdirOf pkg.id))
                    ((s.withDir (subdirOf pkg.id)).withArchive tmpTgz) with
                | mk result s' =>
                    cases result with
                    | error e => exact ⟨json, s'.index, rfl, .inr ⟨⟨rfl, by omega, rfl⟩, by rw [hstore]⟩⟩
                    | ok _ =>
                        obtain ⟨index, hindex⟩ := exec_vacuumAndCompress io s'
                        exact ⟨json, index, rfl, .inr ⟨⟨rfl, by omega, rfl⟩, hindex.trans (by rw [hstore])⟩⟩

/-! ## Directories and rows -/

/-- The packages of the rows are those whose directory is complete, and there is
nothing else under `pkg`. -/
structure Consistent (V : Type) [Semver V] (s : Repo) : Prop where
  rows : ∀ row ∈ s.db.rows, ∃ id : PkgId V, row.columns = id.columns
  has_iff : ∀ id : PkgId V, s.Has id ↔ ∃ d ∈ s.dirs, d.path = subdirOf id ∧ d.Complete
  archives : s.archives = []
  dirs : ∀ d ∈ s.dirs, d.Complete ∧ ∃ id : PkgId V, d.path = subdirOf id

/-- Every file operation from the creation of the directory to the commit succeeds. -/
structure Completes (io : RepoIo) (pkg : PackageInfo V S) : Prop where
  revision : 1 ≤ pkg.id.revision
  printed : pkg.toJson.isSome = true
  renames : io.renames = true
  steps : ∀ step ∈ [RepoStep.prepare, .compressTgz, .beginTransaction, .insert, .copyJson, .commit],
    io.fails step = false

/-- An import of a new package that completes or does not start, an import of a
package that is present which fails before it writes an archive, and a removal of
no row, or of the row of its own id with its directory. -/
def RepoOp.Safe (s : Repo) : RepoOp V S → Prop
  | .create _ _ => True
  | .openExisting _ => True
  | .importDir io package _ => ∀ pkg, package = some pkg → io.fails .createDirectories = false →
      (s.Has pkg.id ∧ FailsEarly io pkg) ∨ (¬ s.Has pkg.id ∧ Completes io pkg)
  | .removePkg io id => io.fails .delete = true ∨ ∀ row ∈ s.db.rows, removes id row = true →
      row.columns = id.columns ∧ io.fails .removeDir = false

variable {s : Repo}

omit [VersionRangeSet S V] in
theorem Consistent.no_dir (h : Consistent V s) {id : PkgId V} (hid : ¬ s.Has id) :
    ∀ d ∈ s.dirs, d.path ≠ subdirOf id := fun d hd hpath =>
  hid ((h.has_iff id).mpr ⟨d, hd, hpath, (h.dirs d hd).1⟩)

omit [VersionRangeSet S V] in
theorem Consistent.has_of_dir (h : Consistent V s) {id : PkgId V}
    (hdir : ∃ d ∈ s.dirs, d.path = subdirOf id) : s.Has id := by
  by_contra hid
  obtain ⟨d, hd, hpath⟩ := hdir
  exact h.no_dir hid d hd hpath

omit [VersionRangeSet S V] in
/-- What does not change the rows and keeps a directory of a package without a
row, or an archive, is not consistent. -/
theorem Consistent.false_of_dir {id : PkgId V} {s' : Repo} (h : Consistent V s') (hid : ¬ s.Has id)
    (hdb : s'.db = s.db) (hdir : ∃ d ∈ s'.dirs, d.path = subdirOf id) : False := by
  apply hid
  have hhas := h.has_of_dir hdir
  unfold Repo.Has at hhas ⊢
  rwa [hdb] at hhas

theorem Completes.not_failsEarly {io : RepoIo} {pkg : PackageInfo V S} (h : Completes io pkg) :
    ¬ FailsEarly io pkg := by
  rintro (hfails | hjson | ⟨hfails, _⟩)
  · exact absurd (hfails.symm.trans (h.steps .prepare (by simp))) (by simp)
  · have := h.printed
    rw [hjson] at this
    cases this
  · exact absurd (hfails.symm.trans (h.steps .compressTgz (by simp))) (by simp)

theorem Completes.archives {io : RepoIo} {pkg : PackageInfo V S} (h : Completes io pkg) :
    Archives io pkg :=
  ⟨h.steps .compressTgz (by simp), h.revision, h.steps .beginTransaction (by simp)⟩

theorem Completes.stores {io : RepoIo} {pkg : PackageInfo V S} {json : Json} (h : Completes io pkg)
    (hjson : pkg.toJson = some json) (hid : ¬ s.Has pkg.id)
    (hdirs : ∀ d ∈ s.dirs, d.path = subdirOf pkg.id → d.json = false) :
    Stores io json (subdirOf pkg.id) s where
  insert := h.steps .insert (by simp)
  absent row hrow hcolumns := hid ⟨row, hrow, hcolumns.trans (packageColumns_toJson hjson)⟩
  moved := .inl h.renames
  copyJson := h.steps .copyJson (by simp)
  noJson := hdirs
  commit := h.steps .commit (by simp)

theorem completes_of_stores {io : RepoIo} {pkg : PackageInfo V S} {json : Json}
    (hearly : ¬ FailsEarly io pkg) (harchives : Archives io pkg)
    (hstores : Stores io json (subdirOf pkg.id) s) (hrenames : io.renames = true) :
    Completes io pkg where
  revision := harchives.2.1
  printed := by
    rw [Option.isSome_iff_ne_none]
    exact fun hjson => hearly (.inr (.inl hjson))
  renames := hrenames
  steps := by
    have hprepare : io.fails .prepare = false := by
      rw [← Bool.not_eq_true]
      exact fun hfails => hearly (.inl hfails)
    simp [hprepare, harchives.1, harchives.2.2, hstores.insert, hstores.copyJson, hstores.commit]

/-- The directories after a transaction that commits, when there was none of the package. -/
theorem dirs_stored (io : RepoIo) (json : Json) (tmpTgz : String) {destDir : String × String}
    (hdirs : ∀ d ∈ s.dirs, d.path ≠ destDir) :
    (stored io json tmpTgz destDir ((s.withDir destDir).withArchive tmpTgz)).dirs =
      s.dirs ++ [⟨destDir, if io.renames then .file else .directory, true⟩] := by
  show updateDir destDir _ (updateDir destDir _ (createDir destDir s.dirs)) = _
  rw [createDir_of_not_mem hdirs, updateDir_append_singleton hdirs rfl,
    updateDir_append_singleton hdirs rfl]

theorem Consistent.stored (h : Consistent V s) {io : RepoIo} {pkg : PackageInfo V S} {json : Json}
    {tmpTgz : String} {index : Option RepoDb} (hjson : pkg.toJson = some json)
    (hid : ¬ s.Has pkg.id) (hrenames : io.renames = true) :
    Consistent V { stored io json tmpTgz (subdirOf pkg.id)
      ((s.withDir (subdirOf pkg.id)).withArchive tmpTgz) with index := index } := by
  have hcolumns := packageColumns_toJson hjson
  have hdirs := dirs_stored io json tmpTgz (h.no_dir hid)
  rw [hrenames, if_pos rfl] at hdirs
  constructor
  · intro row hrow
    rcases List.mem_append.mp hrow with hrow | hrow
    · exact h.rows row hrow
    · rw [List.mem_singleton.mp hrow]
      exact ⟨pkg.id, hcolumns⟩
  · intro id
    dsimp only
    rw [hdirs]
    constructor
    · rintro ⟨row, hrow, hrowId⟩
      rcases List.mem_append.mp hrow with hrow | hrow
      · obtain ⟨d, hd, hcomplete⟩ := (h.has_iff id).mp ⟨row, hrow, hrowId⟩
        exact ⟨d, List.mem_append_left _ hd, hcomplete⟩
      · rw [List.mem_singleton.mp hrow] at hrowId
        have hid' : id = pkg.id := PkgId.columns_injective (hrowId.symm.trans hcolumns)
        exact ⟨_, List.mem_append_right _ (List.mem_singleton_self _), by rw [hid'], rfl, rfl⟩
    · rintro ⟨d, hd, hpath, hcomplete⟩
      rcases List.mem_append.mp hd with hd | hd
      · obtain ⟨row, hrow, hrowId⟩ := (h.has_iff id).mpr ⟨d, hd, hpath, hcomplete⟩
        exact ⟨row, List.mem_append_left _ hrow, hrowId⟩
      · rw [List.mem_singleton.mp hd] at hpath
        have hid' : pkg.id = id := subdirOf_injective hpath
        exact ⟨_, List.mem_append_right _ (List.mem_singleton_self _), by rw [← hid']; exact hcolumns⟩
  · show (s.archives ++ [tmpTgz]).filter (· ≠ tmpTgz) = []
    simp [h.archives]
  · intro d hd
    dsimp only at hd
    rw [hdirs] at hd
    rcases List.mem_append.mp hd with hd | hd
    · exact h.dirs d hd
    · rw [List.mem_singleton.mp hd]
      exact ⟨⟨rfl, rfl⟩, pkg.id, rfl⟩

/-- An import of what is there keeps directories and rows equal when it does nothing. -/
theorem consistent_importDir_of_has (h : Consistent V s) {io : RepoIo} {pkg : PackageInfo V S}
    {tmpTgz : String} (hdir : io.fails .createDirectories = false) (hid : s.Has pkg.id) :
    Consistent V (exec (importDir io (some pkg) tmpTgz) s).2 ↔ FailsEarly io pkg := by
  by_cases hearly : FailsEarly io pkg
  · -- the directory was there, and nothing changes
    have hsame : s.withDir (subdirOf pkg.id) = s := by
      obtain ⟨d, hd, hpath, _⟩ := (h.has_iff pkg.id).mp hid
      unfold Repo.withDir
      rw [createDir_of_mem ⟨d, hd, hpath⟩]
    rw [exec_importDir_early hdir hearly, hsame]
    exact iff_of_true h hearly
  · -- the archive stays
    refine iff_of_false (fun hafter => ?_) hearly
    obtain ⟨json, index, hjson, ⟨_, hexec⟩ | ⟨_, hexec⟩⟩ :=
      exec_importDir_archives tmpTgz s hdir hearly
    · rw [hexec] at hafter
      exact absurd hafter.archives (by simp [Repo.withArchive])
    · obtain ⟨row, hrow, hcolumns⟩ := hid
      have hpresent := hcolumns.trans (packageColumns_toJson hjson).symm
      rcases exec_storePackage io json tmpTgz (subdirOf pkg.id)
          ((s.withDir (subdirOf pkg.id)).withArchive tmpTgz) with
        ⟨hstores, _⟩ | ⟨_, e, s', hstore, hrolled⟩
      · exact hstores.absent row hrow hpresent
      · rw [hexec, hstore] at hafter
        have harchives := hrolled.archives ⟨row, hrow, hpresent⟩
        exact absurd (harchives.symm.trans hafter.archives) (by simp [Repo.withArchive])

/-- An import of what is not there keeps directories and rows equal when it completes. -/
theorem consistent_importDir_of_not_has (h : Consistent V s) {io : RepoIo}
    {pkg : PackageInfo V S} {tmpTgz : String} (hdir : io.fails .createDirectories = false)
    (hid : ¬ s.Has pkg.id) :
    Consistent V (exec (importDir io (some pkg) tmpTgz) s).2 ↔ Completes io pkg := by
  have hcreated := exists_mem_createDir (subdirOf pkg.id) s.dirs
  by_cases hearly : FailsEarly io pkg
  · refine iff_of_false (fun hafter => ?_) fun hc => hc.not_failsEarly hearly
    rw [exec_importDir_early hdir hearly] at hafter
    exact hafter.false_of_dir hid rfl hcreated
  obtain ⟨json, index, hjson, ⟨harchives, hexec⟩ | ⟨harchives, hexec⟩⟩ :=
    exec_importDir_archives tmpTgz s hdir hearly
  · refine iff_of_false (fun hafter => ?_) fun hc => harchives hc.archives
    rw [hexec] at hafter
    exact hafter.false_of_dir hid rfl hcreated
  have hnoDir := h.no_dir hid
  rcases exec_storePackage io json tmpTgz (subdirOf pkg.id)
      ((s.withDir (subdirOf pkg.id)).withArchive tmpTgz) with
    ⟨hstores, hstore⟩ | ⟨hstores, e, s', hstore, hrolled⟩
  · rw [hexec, hstore]
    cases hrenames : io.renames with
    | true =>
        exact iff_of_true (h.stored hjson hid hrenames)
          (completes_of_stores hearly harchives hstores hrenames)
    | false =>
        -- the archive is a directory
        refine iff_of_false (fun hafter => ?_) fun hc => ?_
        · have hdirs := dirs_stored io json tmpTgz hnoDir
          have hmem := (hafter.dirs ⟨subdirOf pkg.id, .directory, true⟩ (by
            dsimp only
            rw [hdirs, hrenames]
            simp)).1
          cases hmem.1
        · exact absurd (hc.renames.symm.trans hrenames) (by simp)
  · rw [hexec, hstore]
    refine iff_of_false (fun hafter => ?_) fun hc => ?_
    · exact hafter.false_of_dir hid hrolled.db (hrolled.dirs _ hcreated)
    · refine hstores (hc.stores hjson hid fun d hd hpath => ?_)
      change d ∈ createDir (subdirOf pkg.id) s.dirs at hd
      rw [createDir_of_not_mem hnoDir] at hd
      rcases List.mem_append.mp hd with hd | hd
      · exact absurd hpath (hnoDir d hd)
      · rw [List.mem_singleton.mp hd]

/-- An import keeps directories and rows equal exactly when it is safe. -/
theorem consistent_importDir_iff (h : Consistent V s) {io : RepoIo} {pkg : PackageInfo V S}
    {tmpTgz : String} (hdir : io.fails .createDirectories = false) :
    Consistent V (exec (importDir io (some pkg) tmpTgz) s).2 ↔
      (s.Has pkg.id ∧ FailsEarly io pkg) ∨ (¬ s.Has pkg.id ∧ Completes io pkg) := by
  by_cases hid : s.Has pkg.id
  · rw [consistent_importDir_of_has h hdir hid]
    simp only [hid, true_and, not_true, false_and, or_false]
  · rw [consistent_importDir_of_not_has h hdir hid]
    simp only [hid, false_and, not_false_eq_true, true_and, false_or]

omit [VersionRangeSet S V] in
theorem removes_of_columns {id : PkgId V} {row : RepoRow} (h : row.columns = id.columns) :
    removes id row = true := by
  unfold removes
  rw [h]
  simp [PkgId.columns]

omit [VersionRangeSet S V] in
/-- Without the row and the directory of one package. -/
theorem Consistent.without (h : Consistent V s) (id : PkgId V) :
    Consistent V { s with
      db := { s.db with rows := s.db.rows.filter fun row => row.columns ≠ id.columns }
      dirs := s.dirs.filter fun d => d.path ≠ subdirOf id } := by
  constructor
  · intro row hrow
    exact h.rows row (List.mem_filter.mp hrow).1
  · intro id'
    constructor
    · rintro ⟨row, hrow, hcolumns⟩
      simp only [List.mem_filter, decide_eq_true_eq] at hrow
      obtain ⟨d, hd, hpath, hcomplete⟩ := (h.has_iff id').mp ⟨row, hrow.1, hcolumns⟩
      refine ⟨d, List.mem_filter.mpr ⟨hd, ?_⟩, hpath, hcomplete⟩
      rw [decide_eq_true_iff, hpath]
      intro hsame
      rw [subdirOf_injective hsame] at hcolumns
      exact hrow.2 hcolumns
    · rintro ⟨d, hd, hpath, hcomplete⟩
      simp only [List.mem_filter, decide_eq_true_eq] at hd
      obtain ⟨row, hrow, hcolumns⟩ := (h.has_iff id').mpr ⟨d, hd.1, hpath, hcomplete⟩
      refine ⟨row, List.mem_filter.mpr ⟨hrow, ?_⟩, hcolumns⟩
      rw [decide_eq_true_iff, hcolumns]
      intro hsame
      rw [PkgId.columns_injective hsame] at hpath
      exact hd.2 hpath
  · exact h.archives
  · intro d hd
    exact h.dirs d (List.mem_filter.mp hd).1

omit [VersionRangeSet S V] in
/-- A removal of nothing, or of the row of its id together with the directory. -/
theorem consistent_removePkg_iff (h : Consistent V s) {io : RepoIo} {id : PkgId V} :
    Consistent V (exec (removePkg io id) s).2 ↔
      io.fails .delete = true ∨ ∀ row ∈ s.db.rows, removes id row = true →
        row.columns = id.columns ∧ io.fails .removeDir = false := by
  unfold removePkg
  rw [exec_check_bind]
  cases hdelete : io.fails .delete with
  | true => exact iff_of_true h (.inl rfl)
  | false =>
      rw [if_neg Bool.false_ne_true, exec_bind, exec_modify]
      dsimp only
      rw [exec_check_bind]
      constructor
      · intro hafter
        refine .inr fun row hrow hremoves => ?_
        obtain ⟨rowId, hrowId⟩ := h.rows row hrow
        obtain ⟨d, hd, hpath, _⟩ := (h.has_iff rowId).mp ⟨row, hrow, hrowId⟩
        -- no row of the package is left, so its directory must be gone
        have hgone : ¬ ∃ row' ∈ s.db.rows.filter fun row => !removes id row,
            row'.columns = rowId.columns := by
          rintro ⟨row', hrow', hcolumns⟩
          have hkept := (List.mem_filter.mp hrow').2
          unfold removes at hkept hremoves
          rw [hcolumns, ← hrowId, hremoves] at hkept
          cases hkept
        by_contra hkeeps
        cases hremoveDir : io.fails .removeDir with
        | true =>
            rw [hremoveDir] at hafter
            exact hgone (hafter.has_of_dir ⟨d, hd, hpath⟩)
        | false =>
            rw [hremoveDir] at hafter
            refine hgone (hafter.has_of_dir ⟨d, List.mem_filter.mpr ⟨hd, ?_⟩, hpath⟩)
            rw [decide_eq_true_iff, hpath]
            intro hsame
            rw [subdirOf_injective hsame] at hrowId
            exact hkeeps ⟨hrowId, hremoveDir⟩
      · rintro (hfails | hsafe)
        · cases hfails
        · have hrows : s.db.rows.filter (fun row => !removes id row) =
              s.db.rows.filter fun row => row.columns ≠ id.columns := by
            refine List.filter_congr fun row hrow => ?_
            by_cases hcolumns : row.columns = id.columns
            · simp [removes_of_columns hcolumns, hcolumns]
            · have hkept : removes id row = false := by
                rw [← Bool.not_eq_true]
                exact fun hremoves => hcolumns (hsafe row hrow hremoves).1
              simp [hkept, hcolumns]
          have hwithout := h.without id
          rw [← hrows] at hwithout
          cases hremoveDir : io.fails .removeDir with
          | false => exact hwithout
          | true =>
              -- there is no row of the package, and so no directory
              have hdirs : s.dirs.filter (fun d => d.path ≠ subdirOf id) = s.dirs := by
                refine List.filter_eq_self.mpr fun d hd => ?_
                rw [decide_eq_true_iff]
                intro hpath
                obtain ⟨row, hrow, hcolumns⟩ := h.has_of_dir ⟨d, hd, hpath⟩
                have hremoved := (hsafe row hrow (removes_of_columns hcolumns)).2
                exact absurd (hremoved.symm.trans hremoveDir) (by simp)
              rw [hdirs] at hwithout
              exact hwithout

/-! ## Runs -/

/-- What is neither a row, an archive nor a directory does not matter. -/
theorem exec_create (io : RepoIo) (name : String) (s : Repo) :
    ∃ selfName index, (exec (create io name) s).2 =
      { s with db := { s.db with selfName := selfName }, index := index } := by
  unfold create
  rw [exec_check_bind]
  split
  next => exact ⟨s.db.selfName, s.index, rfl⟩
  next =>
    rw [exec_check_bind]
    split
    next => exact ⟨s.db.selfName, s.index, rfl⟩
    next =>
      rw [exec_bind, exec_get]
      dsimp only
      split
      next => exact ⟨s.db.selfName, s.index, rfl⟩
      next =>
        rw [exec_check_bind]
        split
        next => exact ⟨s.db.selfName, s.index, rfl⟩
        next =>
          rw [exec_bind, exec_modify]
          obtain ⟨index, hindex⟩ := exec_vacuumAndCompress io
            { s with db := { s.db with selfName := some name } }
          exact ⟨some name, index, hindex⟩

/-- An operation keeps directories and rows equal exactly when it is safe. -/
theorem consistent_run_iff (h : Consistent V s) (op : RepoOp V S) :
    Consistent V (exec op.run s).2 ↔ op.Safe s := by
  cases op with
  | create io name =>
      obtain ⟨selfName, index, hexec⟩ := exec_create io name s
      refine iff_of_true ?_ trivial
      show Consistent V (exec (create io name) s).2
      rw [hexec]
      exact ⟨h.rows, h.has_iff, h.archives, h.dirs⟩
  | openExisting io =>
      refine iff_of_true ?_ trivial
      show Consistent V (exec (check io .openDb) s).2
      unfold check
      split
      next => exact h
      next => exact h
  | importDir io package tmpTgz =>
      show Consistent V (exec (importDir io package tmpTgz) s).2 ↔ _
      cases package with
      | none => exact iff_of_true h (fun _ hpkg => nomatch hpkg)
      | some pkg =>
          cases hdir : io.fails .createDirectories with
          | true =>
              refine iff_of_true ?_ fun _ _ hfails => ?_
              · unfold importDir
                dsimp only
                rw [exec_check_bind, hdir, if_pos rfl]
                exact h
              · exact absurd (hfails.symm.trans hdir) (by simp)
          | false =>
              rw [consistent_importDir_iff h hdir]
              constructor
              · rintro hsafe _ hpkg _
                cases hpkg
                exact hsafe
              · exact fun hsafe => hsafe pkg rfl hdir
  | removePkg io id => exact consistent_removePkg_iff h

/-- The repositories that runs reach from nothing, when every operation is an
allowed one. -/
def RepoReachable (allowed : Repo → RepoOp V S → Prop) : Repo → Prop :=
  Reach.Reachable (fun s => s = {}) fun s t => ∃ op : RepoOp V S, allowed s op ∧ t = (exec op.run s).2

omit [VersionRangeSet S V] in
theorem consistent_empty : Consistent V {} where
  rows _ hrow := nomatch hrow
  has_iff _ := ⟨fun ⟨_, hrow, _⟩ => (nomatch hrow), fun ⟨_, hd, _⟩ => (nomatch hd)⟩
  archives := rfl
  dirs _ hd := nomatch hd

/-- In every run of safe operations the package directories are those of the rows,
and an operation that is not safe ends that. -/
theorem repoReachable_consistent (s : Repo)
    (h : RepoReachable (fun s (op : RepoOp V S) => op.Safe s) s) :
    Consistent V s ∧ ∀ op : RepoOp V S, Consistent V (exec op.run s).2 ↔ op.Safe s := by
  have hs : Consistent V s := by
    refine Reach.Reachable.invariant (I := Consistent V) ?_ ?_ h
    · rintro _ rfl
      exact consistent_empty
    · rintro s _ hs ⟨op, hsafe, rfl⟩
      exact (consistent_run_iff hs op).mpr hsafe
  exact ⟨hs, consistent_run_iff hs⟩

end

/-! ### Removing every revision -/

/-- Every operation on the file system and the database succeeds. -/
def okIo : RepoIo := ⟨fun _ => false, true, false⟩

/-- A package with one library. -/
def fooInfo (revision : Int) : PackageInfo PatchRelease (Finset Nat) where
  id := ⟨⟨"foo"⟩, ⟨1⟩, revision⟩
  libraries := [⟨⟨"main"⟩, ⟨false, ["."], false⟩, [], [], [], []⟩]
  extra := .null
  meta_ := .null

def createFoo : RepoOp PatchRelease (Finset Nat) := .create okIo "foo-repo"

def importFoo : RepoOp PatchRelease (Finset Nat) := .importDir okIo (some (fooInfo 1)) "tmp.tgz"

/-- What `repo_remove` asks for, whatever the revision it is given. -/
def removeFoo : RepoOp PatchRelease (Finset Nat) := .removePkg okIo (fooInfo 0).id

/-- A new repository that has imported the package. -/
def fooImported : Repo := (exec importFoo.run (exec createFoo.run {}).2).2

theorem repoReachable_run {allowed : Repo → RepoOp PatchRelease (Finset Nat) → Prop} {s : Repo}
    (h : RepoReachable allowed s) {op : RepoOp PatchRelease (Finset Nat)} (hop : allowed s op) :
    RepoReachable allowed (exec op.run s).2 :=
  h.step ⟨op, hop, rfl⟩

theorem repoReachable_consistent_foo :
    Consistent PatchRelease fooImported ∧ ∀ op : RepoOp PatchRelease (Finset Nat),
      Consistent PatchRelease (exec op.run fooImported).2 ↔ op.Safe fooImported := by
  refine repoReachable_consistent _ (repoReachable_run (repoReachable_run (.init rfl) trivial) ?_)
  rintro _ ⟨⟩ _
  have hempty : (exec createFoo.run {}).2.db.rows = [] := by decide +kernel
  refine .inr ⟨?_, by decide, by decide +kernel, rfl, by decide⟩
  rintro ⟨row, hrow, _⟩
  rw [hempty] at hrow
  cases hrow

/-- The rows of all revisions are deleted, and the directory of none. -/
theorem repoReachable_not_consistent :
    ∃ s, RepoReachable (fun _ (_ : RepoOp PatchRelease (Finset Nat)) => True) s ∧
      ¬ Consistent PatchRelease s := by
  refine ⟨(exec removeFoo.run fooImported).2, repoReachable_run (repoReachable_run
    (repoReachable_run (.init rfl) trivial) trivial) trivial, fun h => ?_⟩
  have hrows : (exec removeFoo.run fooImported).2.db.rows = [] := by decide +kernel
  have hdirs : (exec removeFoo.run fooImported).2.dirs ≠ [] := by decide +kernel
  obtain ⟨d, hd⟩ := List.exists_mem_of_ne_nil _ hdirs
  obtain ⟨hcomplete, id, hpath⟩ := h.dirs d hd
  obtain ⟨row, hrow, _⟩ := (h.has_iff id).mpr ⟨d, hd, hpath, hcomplete⟩
  rw [hrows] at hrow
  cases hrow

end Bpt.Crs
