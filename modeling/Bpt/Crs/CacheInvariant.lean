-- SUMMARY: What the statements of the package cache do to its tables, and the invariant they keep.
import Bpt.Base.Keyed
import Bpt.Crs.SyncRemote

/-!
# The cache invariant

`CacheDb.Valid` holds the constraints that the schema declares and what the
triggers and the revisions add: the libraries of a package are those of its JSON,
and no package is newer than its remote.
-/

namespace Bpt.Crs

open Transaction Keyed

/-- The library rows of a package. -/
def libraryRowsOf (db : CacheDb) (pkgId : Nat) : List LibraryRow :=
  db.libraries.filter fun l => l.pkgId = pkgId

/-- Their columns `name` and `path`. -/
def librariesOf (db : CacheDb) (pkgId : Nat) : List (String × String) :=
  (libraryRowsOf db pkgId).map fun l => (l.name, l.path)

namespace CacheDb

structure Valid (db : CacheDb) : Prop where
  remoteIds : Unique (·.remoteId) db.remotes
  uniqueNames : Unique (·.uniqueName) db.remotes
  pkgIds : Unique (·.pkgId) db.packages
  pkgKeys : Unique PackageRow.key db.packages
  /-- A package belongs to a remote. -/
  pkgRemote : ∀ row ∈ db.packages, ∃ r ∈ db.remotes, r.remoteId = row.remoteId
  /-- A library belongs to a package. -/
  libPkg : ∀ l ∈ db.libraries, ∃ row ∈ db.packages, row.pkgId = l.pkgId
  /-- A package was published in the last revision of its remote or before. -/
  revno : ∀ row ∈ db.packages, ∀ r ∈ db.remotes, r.remoteId = row.remoteId →
    row.remoteRevno ≤ r.revno
  /-- The library rows of a package are those of its JSON. -/
  libs : ∀ row ∈ db.packages, libraryColumns row.json = some (librariesOf db row.pkgId)

theorem valid_empty : ({} : CacheDb).Valid where
  remoteIds := List.nodup_nil
  uniqueNames := List.nodup_nil
  pkgIds := List.nodup_nil
  pkgKeys := List.nodup_nil
  pkgRemote := by simp
  libPkg := by simp
  revno := by simp
  libs := by simp

end CacheDb

variable {db db' : CacheDb}

/-! ## Libraries -/

theorem mem_libraryRowsOf {l : LibraryRow} {pkgId : Nat} :
    l ∈ libraryRowsOf db pkgId ↔ l ∈ db.libraries ∧ l.pkgId = pkgId := by
  simp [libraryRowsOf]

theorem exec_insertLibrary {pkgId : Nat} {columns : String × String}
    (h : exec (insertLibrary pkgId columns) db = (.ok (), db')) :
    ∃ row : LibraryRow, row.pkgId = pkgId ∧ (row.name, row.path) = columns ∧
      db' = { db with libraries := db.libraries ++ [row] } := by
  unfold insertLibrary at h
  obtain ⟨_, _, hget, h⟩ := exec_bind_eq_ok.mp h
  cases hget
  split at h
  · cases h
  · cases h
    exact ⟨_, rfl, rfl, rfl⟩

/-- Inserting the libraries of a JSON adds rows with its columns. -/
theorem exec_insertLibraries {pkgId : Nat} {json : Json}
    (h : exec (insertLibraries pkgId json) db = (.ok (), db')) :
    ∃ added : List LibraryRow, (∀ l ∈ added, l.pkgId = pkgId) ∧
      libraryColumns json = some (added.map fun l => (l.name, l.path)) ∧
      db' = { db with libraries := db.libraries ++ added } := by
  unfold insertLibraries at h
  cases hcolumns : libraryColumns json with
  | none => simp [hcolumns] at h
  | some columns =>
      simp only [hcolumns] at h
      let P := fun (handled : List (String × String)) (t : CacheDb) =>
        ∃ added : List LibraryRow, (∀ l ∈ added, l.pkgId = pkgId) ∧
          handled = added.map (fun l => (l.name, l.path)) ∧
          t = { db with libraries := db.libraries ++ added }
      have hloop : P columns db' := by
        refine exec_forEach_eq_ok ⟨[], by simp, rfl, by simp⟩ ?_ h
        rintro handled item rest t t' _ ⟨added, hpkg, rfl, rfl⟩ hitem
        obtain ⟨row, hrow, rfl, rfl⟩ := exec_insertLibrary hitem
        refine ⟨added ++ [row], fun l hl => ?_, by simp, by simp⟩
        rcases List.mem_append.mp hl with hl | hl
        · exact hpkg l hl
        · rw [List.mem_singleton.mp hl, hrow]
      obtain ⟨added, hpkg, rfl, rfl⟩ := hloop
      exact ⟨added, hpkg, rfl, rfl⟩

theorem filter_pkgId_of_forall_ne {libs : List LibraryRow} {pkgId : Nat}
    (h : ∀ l ∈ libs, l.pkgId ≠ pkgId) : (libs.filter fun l => l.pkgId = pkgId) = [] := by
  rw [List.filter_eq_nil_iff]
  simpa using h

theorem filter_pkgId_of_forall_eq {libs : List LibraryRow} {pkgId : Nat}
    (h : ∀ l ∈ libs, l.pkgId = pkgId) : (libs.filter fun l => l.pkgId = pkgId) = libs := by
  rw [List.filter_eq_self]
  simpa using h

/-! ## Packages -/

/-- The JSON is stored under its key, in a row of the given id that was either
there under this key or is new. The other rows are untouched. -/
structure Stored (db db' : CacheDb) (new : PackageRow) : Prop where
  remotes : db'.remotes = db.remotes
  enabled : db'.enabled = db.enabled
  packages :
    (∃ old ∈ db.packages, old.pkgId = new.pkgId ∧ old.key = new.key ∧
      db'.packages = db.packages.map fun row => if row.pkgId = old.pkgId then new else row) ∨
    (new.pkgId ∉ db.packages.map (·.pkgId) ∧ new.key ∉ db.packages.map PackageRow.key ∧
      db'.packages = db.packages ++ [new])
  libs : libraryColumns new.json = some (librariesOf db' new.pkgId)
  otherLibs : ∀ pkgId, pkgId ≠ new.pkgId → libraryRowsOf db' pkgId = libraryRowsOf db pkgId

/-- An update that replaces the JSON deletes the old libraries and inserts new
ones; one that keeps it leaves the libraries alone. -/
theorem exec_librariesAutoUpdate {old new : PackageRow}
    (h : exec (librariesAutoUpdate old new) db = (.ok (), db')) (hid : new.pkgId = old.pkgId)
    (hlibs : libraryColumns old.json = some (librariesOf db old.pkgId)) :
    ∃ libraries, db' = { db with libraries } ∧
      libraryColumns new.json = some (librariesOf db' new.pkgId) ∧
      ∀ pkgId, pkgId ≠ new.pkgId → libraryRowsOf db' pkgId = libraryRowsOf db pkgId := by
  unfold librariesAutoUpdate at h
  split at h
  next hjson =>
    obtain ⟨_, _, hdelete, hinsert⟩ := exec_bind_eq_ok.mp h
    cases hdelete
    obtain ⟨added, hadded, hcolumns, rfl⟩ := exec_insertLibraries hinsert
    refine ⟨_, rfl, ?_, fun pkgId hne => ?_⟩
    · have hdeleted := filter_pkgId_of_forall_ne
        (fun l hl => by simpa using (List.mem_filter.mp hl).2 :
          ∀ l ∈ db.libraries.filter (fun l => l.pkgId ≠ new.pkgId), l.pkgId ≠ new.pkgId)
      rw [hcolumns, librariesOf, libraryRowsOf, List.filter_append, hdeleted,
        filter_pkgId_of_forall_eq hadded, List.nil_append]
    · have hnone := filter_pkgId_of_forall_ne fun l hl hpkg => hne (hpkg.symm.trans (hadded l hl))
      simp only [libraryRowsOf, List.filter_append, hnone, List.append_nil, List.filter_filter]
      apply List.filter_congr
      intro l _
      by_cases hl : l.pkgId = pkgId
      · simp [hl, hne]
      · simp [hl]
  next hjson =>
    cases h
    refine ⟨_, rfl, ?_, fun _ _ => rfl⟩
    rw [not_not.mp hjson, hid]
    exact hlibs

/-- Storing a package, in a valid cache. -/
theorem exec_updatePackage {json : Json} {remoteId remoteRevno : Nat} (hdb : db.Valid)
    (h : exec (updatePackage json remoteId remoteRevno) db = (.ok (), db')) :
    ∃ pkgId, Stored db db' ⟨pkgId, json, remoteId, remoteRevno⟩ := by
  unfold updatePackage at h
  obtain ⟨_, _, hget, h⟩ := exec_bind_eq_ok.mp h
  cases hget
  dsimp only at h
  split at h
  · cases h
  split at h
  next old hfind =>
    obtain ⟨_, _, hset, htrigger⟩ := exec_bind_eq_ok.mp h
    cases hset
    have hold := List.mem_of_find?_eq_some hfind
    have hkey : old.key = (packageColumns json, remoteId) := by
      simpa using List.find?_some hfind
    have hremote : old.remoteId = remoteId := congrArg Prod.snd hkey
    obtain ⟨libraries, rfl, hlibs, hother⟩ :=
      exec_librariesAutoUpdate htrigger rfl (hdb.libs old hold)
    refine ⟨old.pkgId, rfl, rfl, .inl ⟨old, hold, rfl, hkey, ?_⟩, hlibs, hother⟩
    rw [← hremote]
  next hfind =>
    obtain ⟨_, _, hset, htrigger⟩ := exec_bind_eq_ok.mp h
    cases hset
    obtain ⟨added, hadded, hcolumns, rfl⟩ := exec_insertLibraries htrigger
    have hnew : ∀ l ∈ db.libraries, l.pkgId ≠ freshRowid (db.packages.map (·.pkgId)) := by
      intro l hl heq
      obtain ⟨row, hrow, hpkg⟩ := hdb.libPkg l hl
      refine freshRowid_not_mem (db.packages.map (·.pkgId)) ?_
      rw [← heq, ← hpkg]
      exact List.mem_map_of_mem hrow
    refine ⟨freshRowid (db.packages.map (·.pkgId)), rfl, rfl,
      .inr ⟨freshRowid_not_mem _, ?_, rfl⟩, ?_, fun pkgId hne => ?_⟩
    · intro hkey
      obtain ⟨row, hrow, hkey⟩ := List.mem_map.mp hkey
      have hne := List.find?_eq_none.mp hfind row hrow
      rw [decide_eq_true_eq] at hne
      exact hne hkey
    · rw [hcolumns, librariesOf, libraryRowsOf, List.filter_append, filter_pkgId_of_forall_ne hnew,
        filter_pkgId_of_forall_eq hadded, List.nil_append]
    · have hnone := filter_pkgId_of_forall_ne fun l hl hpkg => hne (hpkg.symm.trans (hadded l hl))
      simp only [libraryRowsOf, List.filter_append, hnone, List.append_nil]

/-- In a valid cache, storing replaces the row of the same key. -/
theorem Stored.mem_packages {new row : PackageRow} (h : Stored db db' new) (hdb : db.Valid) :
    row ∈ db'.packages ↔ (row ∈ db.packages ∧ row.key ≠ new.key) ∨ row = new := by
  rcases h.packages with ⟨old, hold, hid, hkey, hpackages⟩ | ⟨_, hkey, hpackages⟩
  · rw [hpackages, List.mem_map]
    constructor
    · rintro ⟨r, hr, rfl⟩
      split
      next => exact .inr rfl
      next hne =>
        refine .inl ⟨hr, fun hrkey => hne ?_⟩
        rw [hdb.pkgKeys.eq_of_key hr hold (hrkey.trans hkey.symm)]
    · rintro (⟨hrow, hne⟩ | rfl)
      · refine ⟨row, hrow, if_neg fun hrid => hne ?_⟩
        rw [hdb.pkgIds.eq_of_key hrow hold hrid, hkey]
      · exact ⟨old, hold, if_pos rfl⟩
  · rw [hpackages, List.mem_append, List.mem_singleton]
    refine or_congr_left ⟨fun hrow => ⟨hrow, ?_⟩, And.left⟩
    rintro hrkey
    exact hkey (hrkey ▸ List.mem_map_of_mem hrow)

/-- A row other than the stored one has another id. -/
theorem Stored.pkgId_ne {new row : PackageRow} (h : Stored db db' new) (hdb : db.Valid)
    (hrow : row ∈ db.packages) (hne : row.key ≠ new.key) : row.pkgId ≠ new.pkgId := by
  intro hid
  rcases h.packages with ⟨old, hold, hid', hkey, _⟩ | ⟨hfresh, _, _⟩
  · rw [hdb.pkgIds.eq_of_key hrow hold (hid.trans hid'.symm)] at hne
    exact hne hkey
  · exact hfresh (hid ▸ List.mem_map_of_mem hrow)

/-- Storing a package of a remote in its current revision keeps the cache valid. -/
theorem Stored.valid {new : PackageRow} (h : Stored db db' new) (hdb : db.Valid)
    (hremote : ∃ r ∈ db.remotes, r.remoteId = new.remoteId)
    (hrevno : ∀ r ∈ db.remotes, r.remoteId = new.remoteId → new.remoteRevno ≤ r.revno) :
    db'.Valid where
  remoteIds := h.remotes ▸ hdb.remoteIds
  uniqueNames := h.remotes ▸ hdb.uniqueNames
  pkgIds := by
    rcases h.packages with ⟨old, hold, hid, _, hpackages⟩ | ⟨hfresh, _, hpackages⟩
    · rw [hpackages]
      refine hdb.pkgIds.map_of_key_eq fun row _ => ?_
      split
      next hrow => exact hid.symm.trans hrow.symm
      next => rfl
    · rw [hpackages]
      exact hdb.pkgIds.append_singleton hfresh
  pkgKeys := by
    rcases h.packages with ⟨old, hold, hid, hkey, hpackages⟩ | ⟨_, hfresh, hpackages⟩
    · rw [hpackages]
      refine hdb.pkgKeys.map_of_key_eq fun row hrow => ?_
      split
      next hrid =>
        rw [hdb.pkgIds.eq_of_key hrow hold hrid]
        exact hkey.symm
      next => rfl
    · rw [hpackages]
      exact hdb.pkgKeys.append_singleton hfresh
  pkgRemote := by
    intro row hrow
    rw [h.remotes]
    rcases (h.mem_packages hdb).mp hrow with ⟨hrow, _⟩ | rfl
    · exact hdb.pkgRemote row hrow
    · exact hremote
  libPkg := by
    intro l hl
    by_cases hpkg : l.pkgId = new.pkgId
    · exact ⟨new, (h.mem_packages hdb).mpr (.inr rfl), hpkg.symm⟩
    · have hmem : l ∈ libraryRowsOf db l.pkgId := by
        rw [← h.otherLibs _ hpkg]
        exact mem_libraryRowsOf.mpr ⟨hl, rfl⟩
      obtain ⟨row, hrow, hid⟩ := hdb.libPkg l (mem_libraryRowsOf.mp hmem).1
      refine ⟨row, (h.mem_packages hdb).mpr (.inl ⟨hrow, fun hkey => hpkg ?_⟩), hid⟩
      rw [← hid]
      rcases h.packages with ⟨old, hold, hid', hkey', _⟩ | ⟨_, hfresh, _⟩
      · rw [hdb.pkgKeys.eq_of_key hrow hold (hkey.trans hkey'.symm), hid']
      · exact absurd (hkey ▸ List.mem_map_of_mem hrow) hfresh
  revno := by
    intro row hrow r hr hid
    rw [h.remotes] at hr
    rcases (h.mem_packages hdb).mp hrow with ⟨hrow, _⟩ | rfl
    · exact hdb.revno row hrow r hr hid
    · exact hrevno r hr hid
  libs := by
    intro row hrow
    rcases (h.mem_packages hdb).mp hrow with ⟨hrow, hne⟩ | rfl
    · rw [librariesOf, h.otherLibs row.pkgId (h.pkgId_ne hdb hrow hne)]
      exact hdb.libs row hrow
    · exact h.libs

/-! ## Deletion -/

theorem mem_deletePackages {test : PackageRow → Bool} {row : PackageRow} :
    row ∈ (deletePackages test db).packages ↔ row ∈ db.packages ∧ test row = false := by
  simp [deletePackages]

/-- Deletion keeps the libraries of the packages that stay. -/
theorem libraryRowsOf_deletePackages (hdb : db.Valid) {test : PackageRow → Bool} {row : PackageRow}
    (hrow : row ∈ (deletePackages test db).packages) :
    libraryRowsOf (deletePackages test db) row.pkgId = libraryRowsOf db row.pkgId := by
  obtain ⟨hrow, htest⟩ := mem_deletePackages.mp hrow
  have hkept : row.pkgId ∉ (db.packages.filter test).map (·.pkgId) := by
    intro hmem
    obtain ⟨row', hrow', hid⟩ := List.mem_map.mp hmem
    obtain ⟨hmem', htest'⟩ := List.mem_filter.mp hrow'
    rw [hdb.pkgIds.eq_of_key hmem' hrow hid, htest] at htest'
    cases htest'
  simp only [libraryRowsOf, deletePackages, List.filter_filter]
  apply List.filter_congr
  intro l _
  by_cases hl : l.pkgId = row.pkgId
  · simp [hl, hkept]
  · simp [hl]

theorem CacheDb.Valid.deletePackages (hdb : db.Valid) (test : PackageRow → Bool) :
    (deletePackages test db).Valid where
  remoteIds := hdb.remoteIds
  uniqueNames := hdb.uniqueNames
  pkgIds := hdb.pkgIds.filter _
  pkgKeys := hdb.pkgKeys.filter _
  pkgRemote row hrow := hdb.pkgRemote row (mem_deletePackages.mp hrow).1
  libPkg := by
    intro l hl
    obtain ⟨hl, hkept⟩ := List.mem_filter.mp hl
    obtain ⟨row, hrow, hid⟩ := hdb.libPkg l hl
    refine ⟨row, mem_deletePackages.mpr ⟨hrow, ?_⟩, hid⟩
    by_contra htest
    rw [Bool.not_eq_false] at htest
    rw [decide_eq_true_eq, ← hid] at hkept
    exact hkept (List.mem_map_of_mem (List.mem_filter.mpr ⟨hrow, htest⟩))
  revno row hrow := hdb.revno row (mem_deletePackages.mp hrow).1
  libs row hrow := by
    rw [librariesOf, libraryRowsOf_deletePackages hdb hrow]
    exact hdb.libs row (mem_deletePackages.mp hrow).1

/-! ## Remotes -/

/-- The remote is inserted or refreshed under its unique name: its row is in the
new revision, no package is in that revision yet, and the other rows stay. -/
structure RemoteUpdated (db db' : CacheDb) (url : Url) (name : String) (remoteId revno : Nat) :
    Prop where
  packages : db'.packages = db.packages
  libraries : db'.libraries = db.libraries
  enabled : db'.enabled = db.enabled
  row : ∃ r ∈ db'.remotes, r.remoteId = remoteId ∧ r.revno = revno ∧ r.uniqueName = name ∧
    r.url = url.str
  older : ∀ row ∈ db.packages, row.remoteId = remoteId → row.remoteRevno < revno
  others : ∀ r, r.uniqueName ≠ name → (r ∈ db'.remotes ↔ r ∈ db.remotes)
  valid : db'.Valid

private theorem remoteUpdated_refresh {url : Url} {info : RemoteRepoDbInfo} {row : RemoteRow}
    (hdb : db.Valid) (hrow : row ∈ db.remotes) :
    RemoteUpdated db
      { db with
        remotes := db.remotes.map fun r =>
          if r.uniqueName = row.uniqueName then refreshRemote url info r else r }
      url row.uniqueName row.remoteId (row.revno + 1) := by
  let update := fun r : RemoteRow =>
    if r.uniqueName = row.uniqueName then refreshRemote url info r else r
  have hid : ∀ r, (update r).remoteId = r.remoteId := by
    intro r
    by_cases hr : r.uniqueName = row.uniqueName <;> simp [update, hr, refreshRemote]
  have hname : ∀ r, (update r).uniqueName = r.uniqueName := by
    intro r
    by_cases hr : r.uniqueName = row.uniqueName <;> simp [update, hr, refreshRemote]
  have hrevno : ∀ r, r.revno ≤ (update r).revno := by
    intro r
    by_cases hr : r.uniqueName = row.uniqueName <;> simp [update, hr, refreshRemote]
  refine ⟨rfl, rfl, rfl, ?_, ?_, ?_, ?_⟩
  · exact ⟨update row, List.mem_map_of_mem hrow, by simp [update, refreshRemote]⟩
  · intro pkg hpkg hremote
    exact Nat.lt_succ_of_le (hdb.revno pkg hpkg row hrow hremote.symm)
  · intro r hr
    constructor
    · intro hmem
      obtain ⟨r', hr', rfl⟩ := List.mem_map.mp hmem
      rw [hname] at hr
      rwa [if_neg hr]
    · intro hmem
      exact List.mem_map.mpr ⟨r, hmem, if_neg hr⟩
  · exact {
      remoteIds := hdb.remoteIds.map_of_key_eq fun r _ => hid r
      uniqueNames := hdb.uniqueNames.map_of_key_eq fun r _ => hname r
      pkgIds := hdb.pkgIds
      pkgKeys := hdb.pkgKeys
      pkgRemote := fun pkg hpkg => by
        obtain ⟨r, hr, hremote⟩ := hdb.pkgRemote pkg hpkg
        exact ⟨update r, List.mem_map_of_mem hr, (hid r).trans hremote⟩
      libPkg := hdb.libPkg
      revno := fun pkg hpkg r hr hremote => by
        obtain ⟨r', hr', rfl⟩ := List.mem_map.mp hr
        exact (hdb.revno pkg hpkg r' hr' ((hid r').symm.trans hremote)).trans (hrevno r')
      libs := hdb.libs }

private theorem remoteUpdated_new {url : Url} {info : RemoteRepoDbInfo} {name : String}
    (hdb : db.Valid) (hname : name ∉ db.remotes.map (·.uniqueName)) :
    RemoteUpdated db
      { db with
        remotes := db.remotes ++
          [newRemote url info name (freshRowid (db.remotes.map (·.remoteId)))] }
      url name (freshRowid (db.remotes.map (·.remoteId))) 1 := by
  have hfresh := freshRowid_not_mem (db.remotes.map (·.remoteId))
  have hnone : ∀ row ∈ db.packages, row.remoteId ≠ freshRowid (db.remotes.map (·.remoteId)) := by
    intro row hrow hremote
    obtain ⟨r, hr, hid⟩ := hdb.pkgRemote row hrow
    exact hfresh (hremote ▸ hid ▸ List.mem_map.mpr ⟨r, hr, rfl⟩)
  refine ⟨rfl, rfl, rfl, ?_, ?_, ?_, ?_⟩
  · exact ⟨_, List.mem_append_right _ List.mem_cons_self, rfl, rfl, rfl, rfl⟩
  · intro row hrow hremote
    exact absurd hremote (hnone row hrow)
  · intro r hr
    simp only [List.mem_append, List.mem_singleton]
    refine ⟨fun hmem => hmem.resolve_right ?_, .inl⟩
    rintro rfl
    exact hr rfl
  · exact {
      remoteIds := hdb.remoteIds.append_singleton hfresh
      uniqueNames := hdb.uniqueNames.append_singleton hname
      pkgIds := hdb.pkgIds
      pkgKeys := hdb.pkgKeys
      pkgRemote := fun row hrow => by
        obtain ⟨r, hr, hremote⟩ := hdb.pkgRemote row hrow
        exact ⟨r, List.mem_append_left _ hr, hremote⟩
      libPkg := hdb.libPkg
      revno := fun row hrow r hr hremote => by
        rcases List.mem_append.mp hr with hr | hr
        · exact hdb.revno row hrow r hr hremote
        · rw [List.mem_singleton.mp hr] at hremote
          exact absurd hremote.symm (hnone row hrow)
      libs := hdb.libs }

theorem exec_updateRemote {url : Url} {info : RemoteRepoDbInfo} {remote : RemoteDb}
    {remoteId revno : Nat} (hdb : db.Valid)
    (h : exec (updateRemote url info remote) db = (.ok (remoteId, revno), db')) :
    ∃ name, remote.selfName = some name ∧ RemoteUpdated db db' url name remoteId revno := by
  unfold updateRemote at h
  obtain ⟨_, _, hget, h⟩ := exec_bind_eq_ok.mp h
  cases hget
  cases hname : remote.selfName with
  | none =>
      rw [hname] at h
      cases h
  | some name =>
      rw [hname] at h
      dsimp only at h
      refine ⟨name, rfl, ?_⟩
      cases hfind : db.remotes.find? fun row => row.uniqueName = name with
      | some row =>
          rw [hfind] at h
          have hrow : row.uniqueName = name := by simpa using List.find?_some hfind
          subst hrow
          cases h
          exact remoteUpdated_refresh hdb (List.mem_of_find?_eq_some hfind)
      | none =>
          rw [hfind] at h
          cases h
          refine remoteUpdated_new hdb fun hmem => ?_
          obtain ⟨row, hrow, hrowName⟩ := List.mem_map.mp hmem
          have hne := List.find?_eq_none.mp hfind row hrow
          rw [decide_eq_true_eq] at hne
          exact hne hrowName

end Bpt.Crs
