-- SUMMARY: The package queries on the tables of the cache, and the views that their answers make.
import Bpt.Crs.CacheRuns

/-!
# Queries on the cache

Both `for_package` queries read the enabled packages by generated columns and
load the metadata of each row. In a cache that runs reach the columns are those
of the metadata, so the two answers fit together to a `CacheView`.
-/

namespace Bpt.Crs

open Reach

variable {V S : Type} [Semver V] [VersionRangeSet S V] [Semester]

/-! ## Queries -/

/-- The entry of a row, whose metadata must load. -/
def pkgEntryFromRow (V S : Type) [Semver V] [VersionRangeSet S V] (row : PackageRow) :
    Except PackageInfo.LoadError (PackageEntry V S) :=
  match PackageInfo.fromJsonStr (some row.json) with
  | .ok pkg => .ok ⟨row.pkgId, row.remoteId, pkg⟩
  | .error err => .error err

omit [Semester] in
/-- The rows of a package (`WHERE name = ?`). -/
def packageRows (db : CacheDb) (name : Name) : List PackageRow :=
  (enabledPackages db).filter fun row => row.name = some name.str

omit [Semester] in
/-- The rows of a version of a package (`WHERE name = ? AND version = ?`). -/
def packageVersionRows (db : CacheDb) (name : Name) (version : V) : List PackageRow :=
  (enabledPackages db).filter fun row =>
    row.name = some name.str ∧ row.version = some (Semver.toStr version)

/-- The entries are those of the rows, which may come in any order. -/
def Answers (rows : List PackageRow) (entries : List (PackageEntry V S)) : Prop :=
  ∃ rows', rows'.Perm rows ∧ List.Forall₂ (fun row e => pkgEntryFromRow V S row = .ok e) rows' entries

/-- The view gives the answers that the two queries give for a package. -/
structure Shows (db : CacheDb) (view : CacheView V S) (name : Name) : Prop where
  forPackage : Answers (packageRows db name) (view.forPackage name)
  forPackageVersion : ∀ version : V,
    Answers (packageVersionRows db name version) (view.forPackageVersion name version)

theorem pkgEntryFromRow_eq_ok {row : PackageRow} {e : PackageEntry V S} :
    pkgEntryFromRow V S row = .ok e ↔
      PackageInfo.fromJsonData row.json = .ok e.pkg ∧ e.packageId = row.pkgId ∧
        e.remoteId = row.remoteId := by
  unfold pkgEntryFromRow
  rw [PackageInfo.fromJsonStr]
  cases hload : (PackageInfo.fromJsonData row.json : Except _ (PackageInfo V S)) with
  | error err => simp
  | ok pkg =>
      obtain ⟨pkgId, remoteId, pkg'⟩ := e
      simp only [Except.ok.injEq, PackageEntry.mk.injEq]
      constructor
      · rintro ⟨rfl, rfl, rfl⟩
        exact ⟨rfl, rfl, rfl⟩
      · rintro ⟨rfl, rfl, rfl⟩
        exact ⟨rfl, rfl, rfl⟩

/-- An answer has the entries of the rows that load, and all of them load. -/
theorem Answers.perm_filterMap {rows : List PackageRow} {entries : List (PackageEntry V S)}
    (h : Answers rows entries) :
    entries.Perm (rows.filterMap fun row => (pkgEntryFromRow V S row).toOption) := by
  obtain ⟨rows', hperm, hentries⟩ := h
  have heq : entries = rows'.filterMap fun row => (pkgEntryFromRow V S row).toOption := by
    clear hperm
    induction hentries with
    | nil => rfl
    | cons hrow _ ih => rw [List.filterMap_cons, hrow, ← ih]; rfl
  rw [heq]
  exact hperm.filterMap _

theorem Answers.exists_row {rows : List PackageRow} {entries : List (PackageEntry V S)}
    (h : Answers rows entries) {e : PackageEntry V S} (he : e ∈ entries) :
    ∃ row ∈ rows, pkgEntryFromRow V S row = .ok e := by
  obtain ⟨row, hrow, hload⟩ := List.mem_filterMap.mp (h.perm_filterMap.mem_iff.mp he)
  refine ⟨row, hrow, ?_⟩
  cases hentry : pkgEntryFromRow V S row with
  | error err => simp [hentry, Except.toOption] at hload
  | ok e' => simpa [hentry, Except.toOption] using hload

omit [Semver V] [VersionRangeSet S V] [Semester] in
theorem mem_enabledPackages {db : CacheDb} {row : PackageRow} (h : row ∈ enabledPackages db) :
    row ∈ db.packages := by
  obtain ⟨_, _, hrow⟩ := List.mem_flatMap.mp h
  exact (List.mem_filter.mp hrow).1

/-! ## Stored metadata -/

/-- The metadata of every row is the printed metadata of a package. -/
def Printed (V S : Type) [Semver V] [VersionRangeSet S V] (db : CacheDb) : Prop :=
  ∀ row ∈ db.packages, ∃ pkg : PackageInfo V S, pkg.toJson = some row.json

theorem Imported.printed {db db' : CacheDb} {url : Url} {remote : RemoteDb} {r : RemoteRow}
    (h : Imported V S db db' url remote r) (hdb : Printed V S db) : Printed V S db' := by
  intro row hrow
  by_cases hremote : row.remoteId = r.remoteId
  · obtain ⟨pkg, _, hpkg⟩ := (h.exact_.rows row.json).mp ⟨row, hrow, hremote, rfl⟩
    exact ⟨pkg, hpkg⟩
  · exact hdb row ((h.others.packages row hremote).mp hrow)

theorem CacheReachable.printed {db : CacheDb} (h : CacheReachable V S db) : Printed V S db := by
  have hboth : db.Valid ∧ Printed V S db := by
    refine Reachable.invariant (I := fun db => db.Valid ∧ Printed V S db) ?_ ?_ h
    · rintro _ rfl
      exact ⟨CacheDb.valid_empty, by simp [Printed]⟩
    · rintro s t ⟨hvalid, hprinted⟩ hstep
      refine ⟨hstep.valid hvalid, ?_⟩
      rcases hstep.packages hvalid with hsub | ⟨_, _, _, _, _, _, _, _, r, himported⟩
      · exact fun row hrow => hprinted row (hsub hrow)
      · exact himported.printed hprinted
  exact hboth.2

/-- The columns of a printed row are those of the entry that it loads as. -/
theorem Printed.columns {db : CacheDb} (h : Printed V S db) {row : PackageRow}
    (hrow : row ∈ db.packages) {e : PackageEntry V S} (he : pkgEntryFromRow V S row = .ok e) :
    row.name = some e.pkg.id.name.str ∧ row.version = some (Semver.toStr e.pkg.id.version) := by
  obtain ⟨pkg, hpkg⟩ := h row hrow
  have hid := (PackageInfo.fromJsonData_toJson hpkg (pkgEntryFromRow_eq_ok.mp he).1).1
  have hcolumns := packageColumns_toJson hpkg
  rw [packageColumns] at hcolumns
  simp only [Prod.mk.injEq] at hcolumns
  rw [hid]
  exact ⟨hcolumns.1, hcolumns.2.1⟩

/-! ## Views -/

/-- The rows of a version are those of the package whose entry has the version. -/
theorem entries_packageVersionRows {db : CacheDb} (h : Printed V S db) (name : Name) (version : V) :
    ((packageVersionRows db name version).filterMap fun row => (pkgEntryFromRow V S row).toOption) =
      ((packageRows db name).filterMap fun row => (pkgEntryFromRow V S row).toOption).filter
        fun e => Semver.toStr e.pkg.id.version = Semver.toStr version := by
  have hmem : ∀ row ∈ enabledPackages db, row ∈ db.packages := fun _ => mem_enabledPackages
  unfold packageVersionRows packageRows
  generalize enabledPackages db = rows at hmem
  induction rows with
  | nil => rfl
  | cons row rows ih =>
      have ih := ih fun row hrow => hmem row (List.mem_cons_of_mem _ hrow)
      by_cases hname : row.name = some name.str
      · cases hentry : pkgEntryFromRow V S row with
        | error err =>
            by_cases hversion : row.version = some (Semver.toStr version)
            · simpa [hname, hversion, hentry, Except.toOption] using ih
            · simpa [hname, hversion, hentry, Except.toOption] using ih
        | ok e =>
            have hcolumn := (h.columns (hmem row List.mem_cons_self) hentry).2
            by_cases hversion : Semver.toStr e.pkg.id.version = Semver.toStr version
            · simpa [hname, hcolumn, hversion, hentry, Except.toOption] using ih
            · simpa [hname, hcolumn, hversion, hentry, Except.toOption] using ih
      · simpa [hname] using ih

/-- The answers on a cache that runs reach, as a view. -/
def CacheView.ofAnswers (db : CacheDb) (hreach : CacheReachable V S db)
    (forPackage : Name → List (PackageEntry V S))
    (forPackageVersion : Name → V → List (PackageEntry V S))
    (hpackage : ∀ name, Answers (packageRows db name) (forPackage name))
    (hversion : ∀ name version,
      Answers (packageVersionRows db name version) (forPackageVersion name version)) :
    CacheView V S where
  forPackage := forPackage
  forPackageVersion := forPackageVersion
  name_of_mem := by
    intro name e he
    obtain ⟨row, hrow, hload⟩ := (hpackage name).exists_row he
    simp only [packageRows, List.mem_filter, decide_eq_true_eq] at hrow
    have hcolumn := (hreach.printed.columns (mem_enabledPackages hrow.1) hload).1
    rw [hrow.2] at hcolumn
    exact (Name.str_injective (Option.some.inj hcolumn)).symm
  version_perm name version := by
    refine (hversion name version).perm_filterMap.trans ?_
    rw [entries_packageVersionRows hreach.printed]
    exact ((hpackage name).perm_filterMap.filter _).symm

/-- The row is read as the entry, and the columns the queries look at are its. -/
structure ReadsAs (row : PackageRow) (e : PackageEntry V S) : Prop where
  load : pkgEntryFromRow V S row = .ok e
  name : row.name = some e.pkg.id.name.str
  version : row.version = some (Semver.toStr e.pkg.id.version)

/-- The enabled rows, in their order, as a view. -/
theorem CacheView.shows_ofRows {db : CacheDb} {entries : List (PackageEntry V S)}
    (h : List.Forall₂ ReadsAs (enabledPackages db) entries) (name : Name) :
    Shows db (.ofRows entries) name := by
  have hname : ∀ ⦃row : PackageRow⦄ ⦃e : PackageEntry V S⦄, ReadsAs row e →
      (row.name = some name.str ↔ e.pkg.id.name = name) := by
    intro row e hrow
    rw [hrow.name, Option.some.injEq, Name.str_injective.eq_iff]
  constructor
  · have hrows := List.rel_filter (p := fun row => row.name = some name.str)
      (q := fun e => e.pkg.id.name = name) (fun row e hrow => by simpa using hname hrow) h
    exact ⟨_, .refl _, hrows.imp fun _ _ hrow => hrow.load⟩
  · intro version
    have hrows := List.rel_filter
      (p := fun row => row.name = some name.str ∧ row.version = some (Semver.toStr version))
      (q := fun e => Semver.toStr e.pkg.id.version = Semver.toStr version ∧ e.pkg.id.name = name)
      (fun row e hrow => by simp [hname hrow, hrow.version, and_comm]) h
    refine ⟨_, .refl _, ?_⟩
    simp only [packageVersionRows, ofRows, List.filter_filter, ← Bool.decide_and]
    exact hrows.imp fun _ _ hrow => hrow.load

end Bpt.Crs
